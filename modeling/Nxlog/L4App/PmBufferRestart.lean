import Nxlog.L4App.PmBufferOrder

/-!
# Restarting the buffer processor

`pm_buffer_stop` leaves `size`, `buffer_size` and the queue in memory as they are,
and `pm_buffer_start` counts the chunk files, or reads the queue file, on top of
them. A chunk that was read in part is counted, and later read, from its start.

* `scanDir_size`: a start adds every record in the files to `size`.
* `restart_restores`: in every state reached, a restart brings back exactly the
  records stored if and only if there are none.
* `restart_counts_again`: with a chunk that was read in part.
-/
namespace Nxlog.L4
open L1 L2 Res List

/-! ## What a restart is for -/

def Idle (s : Pm) : Prop :=
  match s.buf.type with
  | .mem => s.buf.queue.list = []
  | .disk => s.buf.size = 0

/-- The directory shows each chunk file that is left after `pm_buffer_stop` once. -/
def Lists (s : Pm) (listing : List Int) : Prop :=
  s.buf.type = .disk → listing.Nodup ∧ ∀ s1, stop s = .ok s1 → ∀ id, id ∈ listing ↔
  (s1.chunks id).isSome = true

/-- The same records are stored, in the same order, and counted right. -/
def Restored (s s' : Pm) : Prop :=
  ∃ stored stored', Stores s stored ∧ Stores s' stored' ∧
    stored'.map Logdata.content = stored.map Logdata.content ∧ storedBytes stored' = .ok s'.buf.buffer_size

def Survives (s : Pm) (listing : List Int) : Prop := ∃ s', exec s (.restart listing) = .ok s' ∧ Restored s s'

/-- The condition on the events of a run with restarts. -/
def RestartOk (s : Pm) : Act → Prop
  | .restart listing => Lists s listing ∧ Idle s
  | .receive ld => StepOk s (.receive ld)
  | .event status sends => StepOk s (.event status sends)

/-! ## The scan of the chunk files -/

theorem int32_add (i n : Int) : int32 (int32 i + n) = int32 (i + n) := Int.bmod_add_bmod

/-- The scan of one chunk counts its records. -/
theorem scanFile_frames (c : List Logdata) (fuel total : Nat) (lenbuf : Bytes) (b : PmBuffer)
    (hfuel : c.length < fuel) (hsmall : ∀ x ∈ c, (encoded x).length < 2 ^ 32)
    (hlen : lenbuf.length = 4) (hsize : int32 b.size = b.size) :
    ∃ lenbuf', lenbuf'.length = 4 ∧ scanFile fuel (c.flatMap framed) lenbuf total b =
    .ok (total + 4 * c.length,
      lenbuf', { b with size := int32 (b.size + c.length), buffer_size := b.buffer_size + (c.flatMap
      framed).length }) := by
  induction c generalizing fuel total lenbuf b with
  | nil =>
    obtain ⟨fuel, rfl⟩ : ∃ k, fuel = k + 1 := ⟨fuel - 1, by simp at hfuel; omega⟩
    refine ⟨lenbuf, hlen, ?_⟩
    simp [scanFile, hsize]
  | cons ld c ih =>
    obtain ⟨fuel, rfl⟩ : ∃ k, fuel = k + 1 := ⟨fuel - 1, by simp at hfuel; omega⟩
    have hld := hsmall ld mem_cons_self
    have hlenfield : ((framed ld ++ c.flatMap framed).take 4).length = 4 := by
      rw [length_take]
      exact Nat.min_eq_left (four_le_framed _ _)
    have hbuf : (framed ld ++ c.flatMap framed).take 4 ++
      lenbuf.drop 4 = (framed ld ++ c.flatMap framed).take 4 := by
      rw [drop_of_length_le (by omega), append_nil]
    obtain ⟨lenbuf', hlen', hrun⟩ := ih fuel (total + 4) ((framed ld ++ c.flatMap framed).take 4)
      { b with size := int32 (b.size + 1), buffer_size := b.buffer_size + (encoded ld).length + 4 }
      (by rw [length_cons] at hfuel; omega) (forall_mem_cons.mp hsmall).2
      hlenfield (by simpa using int32_add (b.size + 1) 0)
    refine ⟨lenbuf', hlen', ?_⟩
    rw [flatMap_cons, scanFile, if_neg (framed_append_ne_nil _ _)]
    dsimp only
    rw [hlenfield, hbuf, leNat_framed, Nat.mod_eq_of_lt hld, framed_drop, drop_left' rfl, hrun,
      int32_add, length_append, framed_length, length_cons]
    have h1 : total + 4 + 4 * c.length = total + 4 * (c.length + 1) := by omega
    have h2 : b.size + 1 + (c.length : Int) = b.size + ((c.length + 1 : Nat) : Int) := by omega
    have h3 : b.buffer_size + (encoded ld).length + 4 + (c.flatMap framed).length =
        b.buffer_size + (4 + (encoded ld).length + (c.flatMap framed).length) := by omega
    rw [h1, h2, h3]

/-- The scan of the directory adds the number of records in the files to `size`. -/
theorem scanDir_size (frames : Int → List Logdata) (listing : List Int) (lenbuf : Bytes) (s : Pm)
    (hnodup : listing.Nodup) (hlen : lenbuf.length = 4) (hsize : int32 s.buf.size = s.buf.size)
    (hfiles : ∀ id ∈ listing, s.chunks id = some ((frames id).flatMap framed))
    (hsmall : ∀ id ∈ listing, ∀ x ∈ frames id, (encoded x).length < 2 ^ 32) :
    ∃ s', scanDir listing lenbuf s = .ok s' ∧ s'.buf.size = int32 (s.buf.size + ((listing.map fun id => (frames
      id).length).sum : Nat)) ∧ s'.buf.type = s.buf.type := by
  induction listing generalizing lenbuf s with
  | nil => exact ⟨s, rfl, by simpa using hsize.symm, rfl⟩
  | cons id ids ih =>
    obtain ⟨hid, hids⟩ := nodup_cons.mp hnodup
    have hfile := hfiles id mem_cons_self
    have hfuel := length_le_framed (frames id)
    obtain ⟨lenbuf', hlen', hscan⟩ :=
      scanFile_frames (frames id) (((frames id).flatMap framed).length + 1) 0 lenbuf
      s.buf (by omega) (hsmall id mem_cons_self) hlen hsize
    let b : PmBuffer := { s.buf with
      size := int32 (s.buf.size + (frames id).length)
      buffer_size := s.buf.buffer_size + ((frames id).flatMap framed).length }
    have hsum : s.buf.size + (((id :: ids).map fun id => (frames id).length).sum : Nat) =
        s.buf.size + (frames id).length + ((ids.map fun id => (frames id).length).sum : Nat) := by
      rw [map_cons, sum_cons]
      omega
    have hb : int32 b.size = b.size := by
      have := int32_add (s.buf.size + (frames id).length) 0
      simpa [b] using this
    have hrest : ∀ x ∈ ids, ∀ y ∈ frames x, (encoded y).length < 2 ^ 32 :=
      (forall_mem_cons.mp hsmall).2
    rw [scanDir, hfile]
    dsimp only
    rw [hscan, ok_bind]
    by_cases hzero : 0 + 4 * (frames id).length = 0
    · -- an empty file is removed; the others are as before
      rw [if_pos hzero]
      obtain ⟨s', hrun, hsz, ht⟩ := ih lenbuf'
        { s with buf := b, chunks := Function.update s.chunks id none } hids hlen' hb (by
          intro x hx
          show Function.update s.chunks id none x = _
          rw [Function.update_of_ne (ne_of_mem_of_not_mem hx hid)]
          exact hfiles x (mem_cons_of_mem _ hx)) hrest
      refine ⟨s', hrun, ?_, ht⟩
      rw [hsz, hsum]
      exact int32_add _ _
    · rw [if_neg hzero]
      obtain ⟨s', hrun, hsz, ht⟩ := ih lenbuf' { s with buf := noteId b (int32 id) } hids hlen' hb
        (forall_mem_cons.mp hfiles).2 hrest
      refine ⟨s', hrun, ?_, ht⟩
      rw [hsz, hsum]
      exact int32_add _ _

/-- Empty files are removed. -/
theorem scanDir_blank (listing : List Int) (lenbuf : Bytes) (s : Pm) (hnodup : listing.Nodup)
    (hblank : ∀ id, s.chunks id = if id ∈ listing then some [] else none) :
    scanDir listing lenbuf s = .ok { s with chunks := fun _ => none } := by
  induction listing generalizing lenbuf s with
  | nil =>
    have hnone : s.chunks = fun _ => none := funext fun id => by simpa using hblank id
    rw [scanDir, ← hnone]
  | cons id ids ih =>
    obtain ⟨hid, hids⟩ := nodup_cons.mp hnodup
    have hrest := ih lenbuf { s with chunks := Function.update s.chunks id none } hids (by
      intro x
      show Function.update s.chunks id none x = _
      by_cases hx : x = id
      · rw [hx, Function.update_self, if_neg hid]
      · rw [Function.update_of_ne hx, hblank]
        simp [hx])
    rw [scanDir, (hblank id).trans (if_pos mem_cons_self)]
    exact hrest

/-! ## The chunks of a directory -/

variable {chunks : Chunks} {cs : List (List Logdata)}

theorem ChunksFrom.get {id : Int} {k : Nat} {c : List Logdata}
    (h : ChunksFrom chunks id cs) (hk : cs[k]? = some c) : chunks (id + k) = some (c.flatMap framed) := by
  induction cs generalizing id k c with
  | nil => simp at hk
  | cons a cs ih =>
    cases k with
    | zero =>
      obtain rfl : a = c := by simpa using hk
      simpa using h.1
    | succ k =>
      have := ih h.2 (by simpa using hk)
      rw [show id + ((k + 1 : Nat) : Int) = id + 1 + k by omega]
      exact this

theorem sum_lengths (cs : List (List Logdata)) :
    ((range cs.length).map fun k => ((cs[k]?).getD []).length).sum = cs.flatten.length := by
  induction cs with
  | nil => rfl
  | cons c cs ih =>
    rw [length_cons, range_succ_eq_map, map_cons, map_map, sum_cons, flatten_cons,
      length_append, ← ih]
    rfl

variable {s : Pm} {stored : List Logdata} {listing : List Int}

/-- What `pm_buffer_stop` leaves of a buffer on disk that stores something. -/
def Pm.closed (s : Pm) : Pm :=
  { s with buf := { s.buf with
    pop_file := none, push_file := false, pop_id := 0, push_id := 0, pop_count := 0, push_count := 0 } }

theorem stop_disk (ht : s.buf.type = .disk) : stop s = .ok (dropChunk s).closed := by
  rw [stop, ht]
  rfl

/-- Only the files can change. -/
theorem dropChunk_eq (s : Pm) : ∃ chunks, dropChunk s = { s with chunks } := by
  unfold dropChunk
  split
  · exact ⟨_, rfl⟩
  · exact ⟨s.chunks, rfl⟩

theorem dropChunk_stored (h : s.buf.size ≠ 0) : dropChunk s = s := if_neg fun hc => h hc.1

variable {P : Logdata → Prop}

/-- The files of a chain are those with the numbers of its chunks. -/
theorem DiskShape.isSome_iff {d : Disk} {consumed ahead : List Logdata}
    {later : List (List Logdata)} (h : DiskShape P d consumed ahead later) (id : Int) :
    (d.chunks id).isSome = true ↔ d.pop_id ≤ id ∧ id ≤ d.push_id := by
  have hids := h.ids
  constructor
  · intro hsome
    by_contra hc
    rw [h.others id (by omega)] at hsome
    cases hsome
  · intro hid
    have hk : (id - d.pop_id).toNat < ((consumed ++ ahead) :: later).length := by
      rw [length_cons]; omega
    have hget := h.files.get (getElem?_eq_getElem hk)
    rw [show d.pop_id + ((id - d.pop_id).toNat : Int) = id by omega] at hget
    rw [hget]
    rfl

/-- The chunk with this number, in a chain that begins with `first`. -/
def chunkAt (cs : List (List Logdata)) (first id : Int) : List Logdata := (cs[(id - first).toNat]?).getD []

/-- A list of exactly the numbers of a chain is the chain in another order, so the
records in its files are those of the chain. -/
theorem sum_chunkAt {first : Int} (hnodup : listing.Nodup)
    (hmem : ∀ id, id ∈ listing ↔ first ≤ id ∧ id < first + cs.length) :
    (listing.map fun id => (chunkAt cs first id).length).sum = cs.flatten.length := by
  have hperm : listing.Perm ((range cs.length).map fun k : Nat => first + (k : Int)) := by
    refine (perm_ext_iff_of_nodup hnodup ?_).mpr ?_
    · exact List.Pairwise.map _ (fun a b hab hc => hab (by omega)) nodup_range
    intro id
    rw [hmem, mem_map]
    constructor
    · intro hb
      exact ⟨(id - first).toNat, mem_range.mpr (by omega), by omega⟩
    · intro hk
      obtain ⟨k, hk, rfl⟩ := hk
      have hlt := mem_range.mp hk
      omega
  rw [(hperm.map _).sum_nat, map_map, ← sum_lengths cs]
  congr 1
  apply map_congr_left
  intro k _
  have hk : (first + (k : Int) - first).toNat = k := by omega
  simp only [Function.comp_apply, chunkAt, hk]

/-- The files of a chain by their numbers. -/
theorem ChunksFrom.chunkAt {first id : Int}
    (h : ChunksFrom chunks first cs) (hid : first ≤ id ∧ id < first + cs.length) :
    chunkAt cs first id ∈ cs ∧ chunks id = some ((chunkAt cs first id).flatMap framed) := by
  have hk : (id - first).toNat < cs.length := by omega
  have hc := getElem?_eq_getElem hk
  have hat : L4.chunkAt cs first id = cs[(id - first).toNat] := by
    rw [L4.chunkAt, hc, Option.getD_some]
  have hget := h.get hc
  rw [show first + ((id - first).toNat : Int) = id by omega] at hget
  rw [hat]
  exact ⟨getElem_mem hk, hget⟩

/-- A start on the files of a buffer that stores something counts them on top. -/
theorem restart_disk_size (h : Holds s stored) (ht : s.buf.type = .disk) (hne : stored ≠ [])
    (hlist : Lists s listing) :
    ∃ s' n, exec s (.restart listing) = .ok s' ∧ s'.buf.type = .disk ∧ 0 < n ∧ n < 2 ^ 32 ∧
      s'.buf.size = int32 (s.buf.size + (n : Nat)) := by
  have hsize := h.size ht
  have hpos := length_pos_iff.mpr hne
  have hstop : stop s = .ok s.closed := by rw [stop_disk ht, dropChunk_stored (by omega)]
  obtain ⟨hnodup, hmem⟩ := hlist ht
  obtain ⟨consumed, ahead, later, hs, rfl⟩ := (inBuffer_disk ht).mp h.inBuffer
  let cs := (consumed ++ ahead) :: later
  have hids : s.buf.push_id = s.buf.pop_id + later.length := hs.ids
  have hlen : (cs.length : Int) = later.length + 1 := by rw [length_cons]; omega
  have hrange : ∀ id, id ∈ listing ↔ s.buf.pop_id ≤ id ∧ id < s.buf.pop_id + cs.length := by
    intro id
    have hsome : (s.chunks id).isSome = true ↔ s.buf.pop_id ≤ id ∧ id ≤ s.buf.push_id := hs.isSome_iff id
    have hin : id ∈ listing ↔ (s.chunks id).isSome = true := hmem _ hstop id
    rw [hin, hsome]
    omega
  have hfiles : ∀ id ∈ listing, chunkAt cs s.buf.pop_id id ∈ cs ∧
      s.chunks id = some ((chunkAt cs s.buf.pop_id id).flatMap framed) :=
    fun id hid => hs.files.chunkAt ((hrange id).mp hid)
  have hint : int32 s.closed.buf.size = s.closed.buf.size := by
    have := hs.small
    exact int32_of_small (i := s.buf.size) (by omega) (by omega)
  obtain ⟨s', hscan, hsz, htype⟩ :=
    scanDir_size (chunkAt cs s.buf.pop_id) listing [0, 0, 0, 0] s.closed hnodup rfl
    hint (fun id hid => (hfiles id hid).2) (fun id hid x hx => (hs.all _ (hfiles id hid).1 x hx).fits rfl)
  have hflat : cs.flatten.length = consumed.length + (ahead ++ later.flatten).length := by
    rw [flatten_cons, append_assoc, length_append]
  refine ⟨firstChunk s', cs.flatten.length, ?_, htype.trans ht, by omega, ?_, ?_⟩
  · rw [exec, hstop, ok_bind, start, show s.closed.buf.type = .disk from ht]
    exact congrArg (· >>= fun s'' => pure (firstChunk s'')) hscan
  · have hfits := hs.fits _ mem_cons_self
    have hlimit := hs.limit.2
    have hsm := hs.small
    rw [length_append] at hfits
    omega
  · rw [sum_chunkAt hnodup hrange] at hsz
    exact hsz

/-! ## Restarts that lose count -/

theorem Restored.lengths {s' : Pm} (h : Restored s s') :
    ∃ stored stored', Stores s stored ∧ Stores s' stored' ∧ stored'.length = stored.length := by
  obtain ⟨stored, stored', h1, h2, hc, -⟩ := h
  have := congrArg length hc
  exact ⟨stored, stored', h1, h2, by simpa using this⟩

theorem not_survives_disk (h : Holds s stored) (ht : s.buf.type = .disk) (hne : stored ≠ [])
    (hlist : Lists s listing) : ¬ Survives s listing := by
  intro hsurv
  obtain ⟨s', hexec, hres⟩ := hsurv
  obtain ⟨s1, n, h1, ht1, hpos, hlt, hsize⟩ := restart_disk_size h ht hne hlist
  obtain rfl : s1 = s' := Except.ok.inj (h1.symm.trans hexec)
  obtain ⟨st, st', hst, hst', hlen⟩ := hres.lengths
  have hbefore := ((stores_disk ht).mp hst).2.2
  have hafter := ((stores_disk ht1).mp hst').2.2
  obtain ⟨consumed, ahead, later, hs, rfl⟩ := (inBuffer_disk ht).mp h.inBuffer
  -- `size` would have to be what it was, but a number below 2^32 was added
  rw [hafter, hlen, ← hbefore] at hsize
  unfold int32 at hsize
  rw [Int.bmod_def] at hsize
  omega

/-- A file that is read to its end adds at least one record. -/
theorem readFrames_grows (fuel : Nat) {file : Bytes} {total n : Nat} {q q' : Logqueue} (hq : q.Wf)
    (h : readFrames fuel file total q = (.ok n, q')) :
    q.list.length ≤ q'.list.length ∧ (file ≠ [] → q.list.length < q'.list.length) := by
  induction fuel generalizing file total q with
  | zero => cases h
  | succ fuel ih =>
    by_cases hnil : file = []
    · rw [readFrames, if_pos hnil] at h
      cases h
      exact ⟨Nat.le_refl _, fun hc => absurd hnil hc⟩
    by_cases hlen : 4 ≤ file.length
    · rw [readFrames_succ hq hnil hlen] at h
      cases hread : nextRecord file with
      | error e =>
        rw [hread] at h
        cases h
      | ok ld =>
        rw [hread] at h
        have hle := (ih (hq.pushed ld) h).1
        simp only [length_append, length_singleton] at hle
        exact ⟨by omega, fun _ => by omega⟩
    · rw [readFrames, if_neg hnil, if_pos (by omega)] at h
      cases h

theorem not_survives_mem (h : Holds s stored) (ht : s.buf.type = .mem) (hne : stored ≠ []) :
    ¬ Survives s listing := by
  intro hsurv
  obtain ⟨s', hexec, hres⟩ := hsurv
  obtain ⟨hlist, hwf, -⟩ := (inBuffer_mem ht).mp h.inBuffer
  have hne' : s.buf.queue.list ≠ [] := by rw [hlist]; exact hne
  let file := s.buf.queue.list.flatMap framed
  have hto : toFile s.buf.queue s.fs = (.ok file.length, s.fs.set (queueFile s.buf.queue) file) := by
    refine toFile_eq hwf hne' ?_
    intro x hx
    rw [hlist] at hx
    exact (h.stored_ok x hx).1
  have hfile : file ≠ [] := by
    intro hc
    exact hne' (framed_flatMap_eq_nil (by rw [show s.buf.queue.list.flatMap framed = [] from hc]; rfl))
  have hstop : stop s = .ok { s with fs := s.fs.set (queueFile s.buf.queue) file } := by
    rw [stop, ht]
    rw [hto]
  have hread : (s.fs.set (queueFile s.buf.queue) file) (queueFile s.buf.queue) = some file := by simp [Fs.set]
  rw [exec, hstop, ok_bind, start,
    show ({ s with fs := s.fs.set (queueFile s.buf.queue) file } : Pm).buf.type = .mem from ht] at hexec
  dsimp only at hexec
  rw [fromFile, hread] at hexec
  dsimp only at hexec
  -- the records of the file are added to those still in memory
  cases hframes : readFrames (file.length + 1) file 0 s.buf.queue with
  | mk r q =>
    rw [hframes] at hexec
    cases r with
    | error e => cases hexec
    | ok n =>
      cases hexec
      have hgrows := (readFrames_grows _ hwf hframes).2 hfile
      obtain ⟨st, st', hst, hst', hlen⟩ := hres.lengths
      have hbefore := ((stores_mem ht).mp hst).1
      have hafter : q.list = st' := by
        refine ((stores_mem ?_).mp hst').1
        exact ht
      rw [hbefore, hafter] at hgrows
      omega

/-! ## Restarts with nothing stored -/

theorem Holds.idle_iff (h : Holds s stored) : Idle s ↔ stored = [] := by
  cases ht : s.buf.type with
  | mem =>
    simp only [Idle, ht]
    rw [((stores_mem ht).mp h.stores).1]
  | disk =>
    simp only [Idle, ht]
    rw [h.size ht, ← length_eq_zero_iff]
    omega

theorem restored_nil {s' : Pm} (h : Holds s []) (h' : Holds s' []) : Restored s s' := by
  refine ⟨[], [], h.stores, h'.stores, rfl, ?_⟩
  rw [storedBytes, h'.bytes]
  rfl

theorem restart_mem_idle (h : Holds s []) (ht : s.buf.type = .mem) :
    ∃ s', exec s (.restart listing) = .ok s' ∧ Holds s' [] := by
  obtain ⟨hlist, hwf, -⟩ := (inBuffer_mem ht).mp h.inBuffer
  have hsize : s.buf.queue.size = 0 := by rw [hwf, hlist]; rfl
  have hstop : stop s = .ok s := by
    rw [stop, ht]
    rw [toFile, if_pos hsize]
  refine ⟨s.setBufferSize 0, ?_, ?_⟩
  · rw [exec, hstop, ok_bind, start, ht]
    rw [fromFile, h.file]
    rfl
  · have hzero : s.buf.buffer_size = 0 := h.bytes
    have hsame : s.setBufferSize 0 = s := by
      rw [← hzero]
      rfl
    rw [hsame]
    exact h

/-- Without records only an empty chunk can be left after `pm_buffer_stop`. -/
theorem dropChunk_blank (h : DiskHolds P s.disk []) : ∀ id file,
    (dropChunk s).chunks id = some file → file = [] := by
  obtain ⟨consumed, ahead, later, hs, hnil⟩ := h
  intro id file hfile
  obtain ⟨rfl, hflat⟩ := append_eq_nil_iff.mp hnil.symm
  have hlater : later = [] := by
    cases later with
    | nil => rfl
    | cons c cs =>
      rw [flatten_cons, append_eq_nil_iff] at hflat
      exact absurd hflat.1 (hs.nonempty c mem_cons_self)
  subst hlater
  have hsize : s.buf.size = 0 := hs.size
  have hids : s.buf.push_id = s.buf.pop_id := hs.ids.trans (Int.add_zero _)
  have hone : ∀ id, id ≠ s.buf.pop_id → s.chunks id = none := by
    intro id hid
    refine hs.others id ?_
    show id < s.buf.pop_id ∨ s.buf.push_id < id
    omega
  have hpos : s.buf.pop_file.getD 0 = (consumed.flatMap framed).length := hs.position
  have hchunk : s.chunks s.buf.pop_id = some ((consumed ++ []).flatMap framed) := hs.files.1
  by_cases hopen : s.buf.pop_file.isSome = true
  · -- the chunk that was read is gone
    have hdrop : (dropChunk s).chunks = Function.update s.chunks s.buf.pop_id none := by
      rw [dropChunk, if_pos ⟨hsize, hopen⟩]
    rw [hdrop] at hfile
    by_cases hid : id = s.buf.pop_id
    · rw [hid, Function.update_self] at hfile
      cases hfile
    · rw [Function.update_of_ne hid, hone id hid] at hfile
      cases hfile
  · -- nothing was read from the only chunk, so nothing was written to it
    have hdrop : dropChunk s = s := if_neg fun hc => hopen hc.2
    have hclosed : s.buf.pop_file = none := by simpa using hopen
    rw [hclosed] at hpos
    rw [hdrop] at hfile
    by_cases hid : id = s.buf.pop_id
    · have hunread : consumed = [] := framed_flatMap_eq_nil hpos.symm
      rw [hid, hchunk, hunread] at hfile
      cases hfile
      rfl
    · rw [hone id hid] at hfile
      cases hfile

theorem restart_disk_idle (h : Holds s []) (ht : s.buf.type = .disk) (hlist : Lists s listing) :
    ∃ s', exec s (.restart listing) = .ok s' ∧ Holds s' [] := by
  obtain ⟨hnodup, hmem⟩ := hlist ht
  have hstop := stop_disk ht
  have hin := (inBuffer_disk ht).mp h.inBuffer
  have hscan := scanDir_blank listing [0, 0, 0, 0] (dropChunk s).closed hnodup fun id => by
    rw [if_congr (hmem _ hstop id) rfl rfl]
    cases hfile : (dropChunk s).closed.chunks id with
    | none => rfl
    | some file => rw [dropChunk_blank hin id file hfile]; rfl
  obtain ⟨chunks, hdrop⟩ := dropChunk_eq s
  rw [hdrop] at hstop hscan
  refine ⟨firstChunk { s.closed with chunks := fun _ => none }, ?_, ?_⟩
  · rw [exec, hstop, ok_bind, start, show ({ s with chunks } : Pm).closed.buf.type = .disk from ht]
    exact congrArg (· >>= fun s'' => pure (firstChunk s'')) hscan
  obtain ⟨consumed, ahead, later, hs, -⟩ := hin
  have hempty : DiskHolds (Storable .disk) (firstChunk { s.closed with chunks := fun _ => none }).disk [] :=
    diskHolds_empty rfl rfl rfl rfl rfl hs.limit rfl rfl (h.size ht)
  refine ⟨?_, h.wf, h.needpop, h.order, h.bytes, h.bounded, h.maxsize, h.storable, h.file⟩
  refine (inBuffer_disk ?_).mpr hempty
  exact ht

theorem restart_idle (h : Holds s []) (hlist : Lists s listing) :
    ∃ s', exec s (.restart listing) = .ok s' ∧ Holds s' [] := by
  cases ht : s.buf.type with
  | mem => exact restart_mem_idle h ht
  | disk => exact restart_disk_idle h ht hlist

/-! ## Runs with restarts -/

theorem exec_restart_good (s : Pm) (a : Act) (h : Good s) (hok : RestartOk s a) :
    ∃ s', exec s a = .ok s' ∧ Good s' := by
  cases a with
  | receive ld => exact exec_good s (.receive ld) h hok
  | event status sends => exact exec_good s (.event status sends) h hok
  | restart listing =>
    obtain ⟨stored, h⟩ := h
    obtain ⟨hlist, hidle⟩ := hok
    obtain rfl := h.idle_iff.mp hidle
    obtain ⟨s', hs, hh⟩ := restart_idle h hlist
    exact ⟨s', hs, [], hh⟩

theorem survives_iff_idle (h : Good s) (hlist : Lists s listing) : Survives s listing ↔ Idle s := by
  obtain ⟨stored, h⟩ := h
  constructor
  · intro hsurv
    by_cases hne : stored = []
    · subst hne
      exact h.idle_iff.mpr rfl
    · cases ht : s.buf.type with
      | mem => exact absurd hsurv (not_survives_mem h ht hne)
      | disk => exact absurd hsurv (not_survives_disk h ht hne hlist)
  · intro hidle
    obtain rfl := h.idle_iff.mp hidle
    obtain ⟨s', hs, hh⟩ := restart_idle h hlist
    exact ⟨s', hs, restored_nil h hh⟩

/-- In every state that is reached with restarts of an idle buffer only, one more
restart brings back the records stored exactly if there are none. -/
theorem restart_restores (s0 : Pm) (h : Started s0) (as : List Act)
    (hok : Meets exec RestartOk s0 as) (s : Pm) (hrun : run exec s0 as = .ok s) (listing : List Int)
    (hlist : Lists s listing) : Survives s listing ↔ Idle s := by
  obtain ⟨s', hs', hgood⟩ := (completes_of_step exec_restart_good h.good hok).run
  obtain rfl : s' = s := Except.ok.inj (hs'.symm.trans hrun)
  exact survives_iff_idle hgood hlist

/-- A record waits in the queue and nothing is stored: the empty first chunk is
removed and made again. -/
theorem restart_restores_waiting_record :
    Survives { newDisk.setQueue ⟨[logdataNew], 1, 100, "buffer", "cache", false⟩ with
      received := [logdataNew] } [1] := by
  refine (restart_restores newDisk newDisk_started [.receive logdataNew] ⟨?_, fun _ _ =>
    trivial⟩ _ rfl [1] ?_).mpr rfl
  · refine ⟨logdataNew_encodable.roundTrips, fun _ n hn => ?_⟩
    rw [logdataNew_size] at hn
    cases hn
    decide
  · refine fun _ => ⟨by decide, ?_⟩
    intro s1 h1 id
    cases h1
    show id ∈ [1] ↔ (Function.update (fun _ : Int => none) 1 (some []) id).isSome = true
    by_cases hid : id = 1
    · rw [hid, Function.update_self]
      decide
    · rw [Function.update_of_ne hid]
      simp [hid]

/-- Two records are stored and one of them is passed on. -/
def halfRead : List Act :=
  [.receive logdataNew, .receive logdataNew, .event .running 0, .event .running 0, .event .running 1]

/-- After `halfRead` there is one chunk file, number 1. -/
theorem halfRead_lists {s : Pm} (hrun : run exec newDisk halfRead = .ok s)
    (hsize : s.buf.size = 1) : Lists s [1] := by
  intro ht
  refine ⟨by decide, ?_⟩
  intro s1 hstop id
  have hchunks : ∃ f g, (run exec newDisk halfRead).map (fun s => s.chunks) =
      .ok (Function.update (Function.update newDisk.chunks 1 f) 1 g) := ⟨_, _, rfl⟩
  have hfirst : (run exec newDisk halfRead).map (fun s => (s.chunks 1).isSome) = .ok true := by decide
  obtain ⟨f, g, hchunks⟩ := hchunks
  rw [hrun] at hchunks hfirst
  rw [stop_disk ht, dropChunk_stored (by rw [hsize]; decide)] at hstop
  cases hstop
  show id ∈ [1] ↔ (s.chunks id).isSome = true
  by_cases hid : id = 1
  · rw [hid]
    exact iff_of_true (by decide) (Except.ok.inj hfirst)
  have hnone : s.chunks id = none := by
    rw [show s.chunks = _ from Except.ok.inj hchunks, Function.update_of_ne hid, Function.update_of_ne hid]
    show Function.update (fun _ : Int => none) 1 (some []) id = none
    rw [Function.update_of_ne hid]
  rw [hnone]
  simp [hid]

/-- One record is left, and after a restart three are counted. -/
theorem restart_counts_again :
    Started newDisk ∧ ∃ s s', run exec newDisk halfRead = .ok s ∧ s.buf.size = 1 ∧ Lists s [1] ∧
      exec s (.restart [1]) = .ok s' ∧ s'.buf.size = 3 ∧ ¬ Survives s [1] := by
  have hbefore : (run exec newDisk halfRead).map (fun s => (s.buf.type, s.buf.size)) =
    .ok (.disk, 1) := by decide
  have hafter : ((run exec newDisk halfRead) >>= fun s => exec s (.restart [1])).map
      (fun s => (s.buf.type, s.buf.size)) = .ok (.disk, 3) := by decide
  obtain ⟨s, hrun, hs⟩ := map_eq_ok hbefore
  rw [hrun, ok_bind] at hafter
  obtain ⟨s', hexec, hs'⟩ := map_eq_ok hafter
  obtain ⟨ht, hsize⟩ := Prod.mk.inj hs
  obtain ⟨ht', hsize'⟩ := Prod.mk.inj hs'
  refine ⟨newDisk_started, s, s', hrun, hsize, halfRead_lists hrun hsize, hexec, hsize', ?_⟩
  intro hsurv
  obtain ⟨s2, h2, hres⟩ := hsurv
  obtain rfl : s2 = s' := Except.ok.inj (h2.symm.trans hexec)
  obtain ⟨st, st', hst, hst', hlen⟩ := hres.lengths
  have hone := ((stores_disk ht).mp hst).2.2
  have hthree := ((stores_disk ht').mp hst').2.2
  omega

end Nxlog.L4
