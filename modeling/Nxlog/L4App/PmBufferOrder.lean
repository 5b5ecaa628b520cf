import Nxlog.Core.Run
import Nxlog.L4App.PmBufferDisk

/-!
# Order and accounting of the buffer processor

`Conserved` is what the buffer is for: what it has passed on, what it stores and
what waits in its queue are together the records received, in their order, and
`buffer_size` is the number of framed bytes stored, less than `MaxSize` and one
record.

* `order_and_accounting`: from a configured and started module, every run in which
  the records on disk fit their 32-bit size field and their number fits an `int`
  completes, and is `Conserved` in every state.
* `stored_record_unreadable`: a record of 4 GiB or more on disk is lost.
-/
namespace Nxlog.L4
open L1 L2 Res List

variable {queue stored : List Logdata} {P : Logdata → Prop}

/-! ## What the buffer holds -/

/-- The sum of `nx_logdata_serialized_size(logdata) + 4`. -/
def storedBytes : List Logdata → Res Nat
  | [] => .ok 0
  | ld :: lds => do
    let n ← logdataSerializedSize ld
    let m ← storedBytes lds
    return n + 4 + m

/-- The bytes in the chunk files behind the position of `pop_file`. -/
def unread (s : Pm) : Bytes :=
  ((List.range (s.buf.push_id - s.buf.pop_id + 1).toNat).flatMap fun k : Nat =>
    (s.chunks (s.buf.pop_id + k)).getD []).drop (s.buf.pop_file.getD 0)

/-- `pm_buffer_pop_disk` gets the record back from its frame. -/
def Readable (ld : Logdata) : Prop :=
  ∃ ld' n, readStored ((framed ld).drop 4) (leNat ((framed ld).take 4)) = .ok (ld', n) ∧
  ld'.content = ld.content

/-- The buffer stores these records and counts them. -/
def Stores (s : Pm) (stored : List Logdata) : Prop :=
  match s.buf.type with
  | .mem => s.buf.queue.list = stored ∧ s.buf.queue.size = stored.length
  | .disk => unread s = stored.flatMap framed ∧ (∀ ld ∈ stored, Readable ld) ∧ s.buf.size = stored.length

theorem stores_mem (ht : s.buf.type = .mem) :
    Stores s stored ↔ s.buf.queue.list = stored ∧ s.buf.queue.size = stored.length := by
  simp only [Stores, ht]

theorem stores_disk (ht : s.buf.type = .disk) : Stores s stored ↔
    unread s = stored.flatMap framed ∧ (∀ ld ∈ stored, Readable ld) ∧ s.buf.size = stored.length := by
  simp only [Stores, ht]

/-- Less than `MaxSize` and one framed record. -/
def Bounded (s : Pm) (stored : List Logdata) : Prop :=
  (stored = [] → s.buf.buffer_size < s.buf.buffer_maxsize) ∧
    ∀ pre ld n, stored = pre ++ [ld] → logdataSerializedSize ld = .ok n →
      s.buf.buffer_size < s.buf.buffer_maxsize + (n + 4)

def Conserved (s : Pm) : Prop :=
  ∃ stored, Stores s stored ∧
    (s.passed ++ stored ++ s.queue.list).map Logdata.content = s.received.map Logdata.content ∧
    storedBytes stored = .ok s.buf.buffer_size ∧ Bounded s stored

/-- A record that survives the codec and, on disk, its size field. -/
def Storable (type : BufferType) (ld : Logdata) : Prop :=
  RoundTrips ld ∧ (type = .disk → ∀ n, logdataSerializedSize ld = .ok n → n < 2 ^ 32)

/-- The condition on the events of one run: on disk, the count of one more record
fits an `int`. -/
def StepOk (s : Pm) : Act → Prop
  | .receive ld => Storable s.buf.type ld
  | .event _ _ => s.buf.type = .disk → s.buf.size + 1 < 2 ^ 31
  | .restart _ => False

theorem Storable.fits {type : BufferType} {ld : Logdata} (h : Storable type ld)
    (ht : type = .disk) : (encoded ld).length < 2 ^ 32 := h.2 ht _ h.1.encodes.size

theorem storedBytes_eq {lds : List Logdata} (h : ∀ ld ∈ lds, RoundTrips ld) :
    storedBytes lds = .ok (lds.flatMap framed).length := by
  induction lds with
  | nil => rfl
  | cons ld lds ih =>
    rw [storedBytes, (h ld mem_cons_self).encodes.size, ok_bind,
      ih (forall_mem_cons.mp h).2, ok_bind, flatMap_cons, length_append,
      framed_length, Nat.add_comm 4]
    rfl

/-- What the records of a chain of chunks look like in the files. -/
theorem ChunksFrom.bytes {chunks : Chunks} {cs : List (List Logdata)} {id : Int}
    (h : ChunksFrom chunks id cs) :
    ((range cs.length).flatMap fun k : Nat => (chunks (id + k)).getD []) = cs.flatten.flatMap framed := by
  induction cs generalizing id with
  | nil => rfl
  | cons c cs ih =>
    have hrest := ih h.2
    have hshift : ∀ k : Nat, id + ((k + 1 : Nat) : Int) = id + 1 + k := fun k => by omega
    rw [length_cons, range_succ_eq_map, flatMap_cons, flatMap_map]
    simp only [Nat.succ_eq_add_one, hshift]
    rw [hrest, flatten_cons, flatMap_append]
    simp [h.1]

theorem DiskHolds.unread (h : DiskHolds P s.disk stored) : unread s = stored.flatMap framed := by
  obtain ⟨consumed, ahead, later, hs, rfl⟩ := h
  have hids : s.buf.push_id = s.buf.pop_id + later.length := hs.ids
  have hlen : (s.buf.push_id - s.buf.pop_id + 1).toNat = ((consumed ++ ahead) :: later).length := by
    rw [length_cons]; omega
  have hpos : s.buf.pop_file.getD 0 = (consumed.flatMap framed).length := hs.position
  have hbytes : ((range ((consumed ++ ahead) :: later).length).flatMap fun k : Nat =>
      (s.chunks (s.buf.pop_id + k)).getD []) = _ := hs.files.bytes
  rw [L4.unread, hlen, hbytes, hpos, flatten_cons, append_assoc, flatMap_append, drop_left' rfl]

theorem readable_of_fits {ld : Logdata} (hrt : RoundTrips ld)
    (hlen : (encoded ld).length < 2 ^ 32) : Readable ld := by
  have hnat := leNat_framed ld []
  have hdrop := framed_drop ld []
  have hread := readStored_framed hrt []
  rw [append_nil] at hnat hdrop hread
  refine ⟨reread ld, (encoded ld).length, ?_, hrt.content⟩
  rw [hnat, Nat.mod_eq_of_lt hlen, hdrop]
  simpa using hread

/-! ## The invariant -/

/-- The records are in the queue in memory, or on disk. -/
def InBuffer (s : Pm) (stored : List Logdata) : Prop :=
  match s.buf.type with
  | .mem => s.buf.queue.list = stored ∧ s.buf.queue.Wf ∧ s.buf.queue.needpop = false
  | .disk => DiskHolds (Storable .disk) s.disk stored

theorem inBuffer_mem (ht : s.buf.type = .mem) : InBuffer s stored ↔
    s.buf.queue.list = stored ∧ s.buf.queue.Wf ∧ s.buf.queue.needpop = false := by
  simp only [InBuffer, ht]

theorem inBuffer_disk (ht : s.buf.type = .disk) : InBuffer s stored ↔
    DiskHolds (Storable .disk) s.disk stored := by
  simp only [InBuffer, ht]

structure Holds (s : Pm) (stored : List Logdata) : Prop where
  inBuffer : InBuffer s stored
  wf : s.queue.Wf
  needpop : s.queue.needpop = false
  order : (s.passed ++ stored ++ s.queue.list).map Logdata.content = s.received.map Logdata.content
  bytes : s.buf.buffer_size = (stored.flatMap framed).length
  bounded : Bounded s stored
  maxsize : 0 < s.buf.buffer_maxsize
  storable : ∀ ld ∈ stored ++ s.queue.list, Storable s.buf.type ld
  file : s.fs (queueFile s.buf.queue) = none

def Good (s : Pm) : Prop := ∃ stored, Holds s stored

variable {s : Pm} {stored rest : List Logdata} {ld : Logdata}

variable (h : Holds s stored)
include h

theorem Holds.stored_ok : ∀ x ∈ stored, Storable s.buf.type x :=
  fun x hx => h.storable x (mem_append_left _ hx)

theorem Holds.stores : Stores s stored := by
  have hok := h.stored_ok
  cases ht : s.buf.type with
  | mem =>
    obtain ⟨hlist, hwf, -⟩ := (inBuffer_mem ht).mp h.inBuffer
    exact (stores_mem ht).mpr ⟨hlist, by rw [hwf, hlist]⟩
  | disk =>
    have hin := (inBuffer_disk ht).mp h.inBuffer
    refine (stores_disk ht).mpr
      ⟨hin.unread, fun x hx => readable_of_fits (hok x hx).1 ((hok x hx).fits ht), ?_⟩
    obtain ⟨consumed, ahead, later, hs, rfl⟩ := hin
    exact hs.size

theorem Holds.conserved : Conserved s := by
  refine ⟨stored, h.stores, h.order, ?_, h.bounded⟩
  rw [storedBytes_eq fun x hx => (h.stored_ok x hx).1, h.bytes]

omit h in
theorem Good.conserved (h : Good s) : Conserved s := by
  obtain ⟨stored, h⟩ := h
  exact h.conserved

theorem Holds.flags (warned warned_full : Bool) :
    Holds { s with buf := { s.buf with warned, warned_full } } stored :=
  ⟨h.inBuffer, h.wf, h.needpop, h.order, h.bytes, h.bounded, h.maxsize, h.storable, h.file⟩

theorem Holds.warn : Holds (warn s) stored := by
  unfold L4.warn
  split
  · exact h.flags true s.buf.warned_full
  · exact h

/-- The number of records on disk is the `size`. -/
theorem Holds.size (ht : s.buf.type = .disk) : s.buf.size = stored.length :=
  ((stores_disk ht).mp h.stores).2.2

/-! ## Passing on what is stored -/

omit h

/-- The oldest record has left the buffer for the modules behind, read back or as it was. -/
theorem Holds.sent {s' : Pm} (h : Holds s (ld :: rest)) (ld' : Logdata) (hin : InBuffer s' rest)
    (hcontent : ld'.content = ld.content) (hpassed : s'.passed = s.passed ++ [ld'])
    (hbytes : s'.buf.buffer_size = s.buf.buffer_size - (framed ld).length)
    (hmax : s'.buf.buffer_maxsize = s.buf.buffer_maxsize) (htype : s'.buf.type = s.buf.type)
    (hqueue : s'.queue = s.queue) (hrecv : s'.received = s.received)
    (hfile : s'.fs (queueFile s'.buf.queue) = none) : Holds s' rest where
  inBuffer := hin
  wf := by rw [hqueue]; exact h.wf
  needpop := by rw [hqueue]; exact h.needpop
  order := by
    rw [hpassed, hqueue, hrecv, ← h.order]
    simp [hcontent]
  bytes := by
    rw [hbytes, h.bytes, flatMap_cons, length_append]
    omega
  bounded := by
    have hsum := h.bytes
    rw [flatMap_cons, length_append] at hsum
    refine ⟨?_, ?_⟩
    · intro hnil
      have hmaxsize := h.maxsize
      rw [hnil] at hsum
      simp at hsum
      omega
    · intro pre x n hpre hn
      have := h.bounded.2 (ld :: pre) x n (by rw [hpre]; rfl) hn
      omega
  maxsize := by rw [hmax]; exact h.maxsize
  storable := by
    intro x hx
    rw [hqueue] at hx
    rw [htype]
    exact h.storable x (mem_cons_of_mem ld hx)
  file := hfile

theorem progress_stored (hneed : s.queue.needpop = false) (ld : Logdata) :
    progress s ld = .ok { s with passed := s.passed ++ [ld] } := by
  simp [progress, popIfNeeded, hneed]

theorem lower_eq {n : Nat} (h : n ≤ s.buf.buffer_size) :
    lower s n = .ok (s.setBufferSize (s.buf.buffer_size - n)) := by
  simp [lower, h]

theorem Holds.frame_le (h : Holds s (ld :: rest)) : (framed ld).length ≤ s.buf.buffer_size := by
  rw [h.bytes, flatMap_cons, length_append]
  omega

theorem sendMem_first (h : Holds s (ld :: rest)) (ht : s.buf.type = .mem) :
    ∃ s', sendMem s = .ok (true, s') ∧ Holds s' rest ∧ s'.buf.type = s.buf.type := by
  obtain ⟨hlist, hwf, -⟩ := (inBuffer_mem ht).mp h.inBuffer
  have hsize := (h.stored_ok ld mem_cons_self).1.encodes.size
  have hframe : (encoded ld).length + 4 = (framed ld).length := by rw [framed_length]; omega
  -- `peek` marks the queue, and the record is popped before it is passed on
  let s1 := s.setBufQueue { s.buf.queue with needpop := true }
  have hlower : lower s1 (framed ld).length =
    .ok (s1.setBufferSize (s.buf.buffer_size - (framed ld).length)) :=
    lower_eq (s := s1) h.frame_le
  let s2 := (s1.setBufferSize (s.buf.buffer_size - (framed ld).length)).setBufQueue
    (Logqueue.tail s.buf.queue rest)
  have hprogress := progress_stored (s := s2) h.needpop ld
  refine ⟨{ s2 with passed := s.passed ++ [ld] }, ?_, ?_, rfl⟩
  · rw [sendMem, hwf.peek_cons hlist, ok_bind]
    dsimp only
    rw [hsize, ok_bind, hframe, hlower, ok_bind]
    have hpop : (s1.setBufferSize (s.buf.buffer_size - (framed ld).length)).buf.queue.pop ld =
        .ok (Logqueue.tail s.buf.queue rest, s.buf.queue.size - 1) := hwf.pop_peeked hlist
    rw [hpop, ok_bind]
    rw [hprogress]
    rfl
  · refine h.sent ld ?_ rfl rfl rfl rfl rfl rfl rfl h.file
    refine (inBuffer_mem ?_).mpr ⟨rfl, hwf.tail hlist, rfl⟩
    exact ht

theorem sendDisk_first (h : Holds s (ld :: rest)) (ht : s.buf.type = .disk) :
    ∃ s', sendDisk s = .ok (true, s') ∧ Holds s' rest ∧ s'.buf.type = s.buf.type := by
  have hin := (inBuffer_disk ht).mp h.inBuffer
  have hok := h.stored_ok ld mem_cons_self
  obtain ⟨d, hpop, hd⟩ := popDisk_first hin hok.1 (hok.fits ht)
  have hlower := lower_eq (s := s.withDisk d) h.frame_le
  let s1 := (s.withDisk d).setBufferSize (s.buf.buffer_size - (framed ld).length)
  have hprogress := progress_stored (s := s1) h.needpop (reread ld)
  refine ⟨{ s1 with passed := s.passed ++ [reread ld] }, ?_, ?_, rfl⟩
  · rw [sendDisk, hpop, ok_bind]
    dsimp only
    rw [hlower, ok_bind]
    exact congrArg (· >>= fun s' => pure (true, s')) hprogress
  · refine h.sent (reread ld) ?_ hok.1.content rfl rfl rfl rfl rfl rfl h.file
    refine (inBuffer_disk ?_).mpr hd
    exact ht

/-- One turn of the loop with something stored. -/
theorem sendStored_first (h : Holds s (ld :: rest)) :
    ∃ s', sendStored s = .ok (true, s') ∧ Holds s' rest ∧ s'.buf.type = s.buf.type := by
  cases ht : s.buf.type with
  | mem =>
    obtain ⟨s', hs, hh, htype⟩ := sendMem_first h ht
    exact ⟨s', by rw [sendStored, ht]; exact hs, hh, htype.trans ht⟩
  | disk =>
    obtain ⟨s', hs, hh, htype⟩ := sendDisk_first h ht
    exact ⟨s', by rw [sendStored, ht]; exact hs, hh, htype.trans ht⟩

/-- One turn of the loop with nothing stored. -/
theorem sendStored_empty (h : Holds s []) :
    ∃ s', sendStored s = .ok (false, s') ∧ Holds s' [] ∧ s'.buf.type = s.buf.type := by
  cases ht : s.buf.type with
  | mem =>
    obtain ⟨hlist, hwf, -⟩ := (inBuffer_mem ht).mp h.inBuffer
    refine ⟨s, ?_, h, ht⟩
    rw [sendStored, ht]
    show sendMem s = _
    rw [sendMem, hwf.peek_nil hlist]
    rfl
  | disk =>
    obtain ⟨d, hpop, hd⟩ := popDisk_empty ((inBuffer_disk ht).mp h.inBuffer)
    have hin : InBuffer (s.withDisk d) [] := by
      refine (inBuffer_disk ?_).mpr hd
      exact ht
    exact ⟨s.withDisk d, by simp [sendStored, ht, sendDisk, hpop], ⟨hin, h.wf, h.needpop, h.order,
      h.bytes, h.bounded, h.maxsize, h.storable, h.file⟩, ht⟩

/-- The loop passes on records from the front; it ends with `can_send` only if none
is left. -/
theorem drain_spec (n : Nat) {s : Pm} {stored : List Logdata} (h : Holds s stored) :
    ∃ can_send s' stored', drain n s = .ok (can_send, s') ∧ Holds s' stored' ∧ stored'.length ≤
      stored.length ∧ (can_send = true → stored' = []) ∧ s'.buf.type = s.buf.type := by
  induction n generalizing s stored with
  | zero => exact ⟨false, s, stored, rfl, h, Nat.le_refl _, by simp, rfl⟩
  | succ n ih =>
    cases stored with
    | nil =>
      obtain ⟨s', hs, hh, ht⟩ := sendStored_empty h
      exact ⟨true, s', [], by simp [drain, hs], hh, Nat.le_refl _, fun _ => rfl, ht⟩
    | cons ld rest =>
      obtain ⟨s1, hs, h1, ht1⟩ := sendStored_first h
      obtain ⟨can_send, s', stored', hd, hh, hle, hnil, ht⟩ := ih h1
      refine ⟨can_send, s', stored', ?_, hh, ?_, hnil, ht.trans ht1⟩
      · rw [drain, hs, ok_bind]
        exact hd
      · rw [length_cons]
        omega

/-! ## The next record of the queue -/

def Pm.peeked (s : Pm) : Pm := s.setQueue { s.queue with needpop := true }

theorem popQueue_eq (hwf : s.queue.Wf) (hneed : s.queue.needpop = true) (hl : s.queue.list = ld :: rest) :
    popQueue s ld = .ok (s.setQueue (Logqueue.tail s.queue rest)) := by
  rw [popQueue, hwf.pop hneed hl]
  rfl

/-- The module after the record was kept on disk. -/
def Pm.keptOnDisk (s : Pm) (d : Disk) (queue : List Logdata) (ld : Logdata) : Pm :=
  ((s.peeked.withDisk d).setQueue (s.queue.tail queue)).setBufferSize (s.buf.buffer_size + (framed ld).length)

theorem keepDisk_eq (hin : DiskHolds P s.disk stored)
    (hwf : s.queue.Wf) (hl : s.queue.list = ld :: queue) (hrt : RoundTrips ld) (hP : P ld)
    (hsmall : stored.length + 1 < 2 ^ 31) :
    ∃ d, keepDisk s.peeked ld = .ok (s.keptOnDisk d queue ld) ∧ DiskHolds P d (stored ++ [ld]) := by
  obtain ⟨d, hpush, hd⟩ := pushDisk_spec (s := s.peeked) hin hrt hP hsmall
  let s1 := s.peeked.withDisk d
  have hpop : popQueue s1 ld = .ok (s1.setQueue (s.queue.tail queue)) := popQueue_eq (s := s1) hwf rfl hl
  refine ⟨d, ?_, hd⟩
  rw [keepDisk, hpush, ok_bind]
  show (popQueue s1 ld >>= _) = _
  rw [hpop, ok_bind, logdataFree_of_roundTrips hrt]
  rfl

section Keep

variable (hl : s.queue.list = ld :: queue) (hroom : s.buf.buffer_size < s.buf.buffer_maxsize)
include h hl hroom

/-- The first record of the queue has been added to those stored. -/
theorem Holds.kept {s' : Pm} (hin : InBuffer s' (stored ++ [ld]))
    (hbytes : s'.buf.buffer_size = s.buf.buffer_size + (framed ld).length)
    (hmax : s'.buf.buffer_maxsize = s.buf.buffer_maxsize) (htype : s'.buf.type = s.buf.type)
    (hqueue : s'.queue = Logqueue.tail s.queue queue)
    (hpassed : s'.passed = s.passed) (hrecv : s'.received = s.received)
    (hfile : s'.fs (queueFile s'.buf.queue) = none) : Holds s' (stored ++ [ld]) where
  inBuffer := hin
  wf := by rw [hqueue]; exact h.wf.tail hl
  needpop := by rw [hqueue]; rfl
  order := by
    rw [hpassed, hrecv, hqueue, ← h.order, hl]
    simp [Logqueue.tail]
  bytes := by
    rw [hbytes, h.bytes]
    simp
  bounded := by
    refine ⟨fun hnil => by simp at hnil, ?_⟩
    intro pre x n hpre hn
    obtain ⟨-, hx⟩ := append_inj' hpre rfl
    obtain rfl : ld = x := by simpa using hx
    have hrt := (h.storable ld (by rw [hl]; simp)).1
    rw [hrt.encodes.size] at hn
    cases hn
    rw [hbytes, hmax, framed_length]
    omega
  maxsize := by rw [hmax]; exact h.maxsize
  storable := by
    intro x hx
    rw [htype]
    refine h.storable x ?_
    rw [hqueue] at hx
    rw [hl]
    simpa [Logqueue.tail] using hx
  file := hfile

theorem keepMem_spec (ht : s.buf.type = .mem) :
    ∃ s', keepMem s.peeked ld = .ok s' ∧ Holds s' (stored ++ [ld]) := by
  have hok := h.storable ld (by rw [hl]; simp)
  obtain ⟨hlist, hwf, hneed⟩ := (inBuffer_mem ht).mp h.inBuffer
  have hframe : (encoded ld).length + 4 = (framed ld).length := by rw [framed_length]; omega
  let s1 := s.peeked.setBufferSize (s.buf.buffer_size + (framed ld).length)
  have hpop : popQueue s1 ld = .ok (s1.setQueue (Logqueue.tail s.queue queue)) :=
    popQueue_eq (s := s1) h.wf rfl hl
  let q : Logqueue := { s.buf.queue with list := s.buf.queue.list ++ [ld], size := s.buf.queue.size + 1 }
  have hpush : (s1.setQueue (Logqueue.tail s.queue queue)).buf.queue.push ld = .ok (q, s.buf.queue.size + 1) :=
    hwf.push ld
  refine ⟨(s1.setQueue (Logqueue.tail s.queue queue)).setBufQueue q, ?_, ?_⟩
  · rw [keepMem, hok.1.encodes.size, ok_bind, hframe]
    show (popQueue s1 ld >>= _) = _
    rw [hpop, ok_bind, hpush]
    rfl
  · refine h.kept hl hroom ?_ rfl rfl rfl rfl rfl rfl h.file
    refine (inBuffer_mem ?_).mpr ⟨?_, ?_, hneed⟩
    · exact ht
    · show s.buf.queue.list ++ [ld] = _
      rw [hlist]
    · show s.buf.queue.size + 1 = ((s.buf.queue.list ++ [ld]).length : Int)
      rw [hwf]
      simp

theorem keepDisk_spec (ht : s.buf.type = .disk) (hsmall : stored.length + 1 < 2 ^ 31) : ∃ s',
    keepDisk s.peeked ld = .ok s' ∧ Holds s' (stored ++ [ld]) := by
  have hok := h.storable ld (by rw [hl]; simp)
  have hin := (inBuffer_disk ht).mp h.inBuffer
  obtain ⟨d, hkeep, hd⟩ := keepDisk_eq hin h.wf hl hok.1 (by rw [← ht]; exact hok) hsmall
  refine ⟨_, hkeep, h.kept hl hroom ?_ rfl rfl rfl rfl rfl rfl h.file⟩
  refine (inBuffer_disk ?_).mpr hd
  exact ht

theorem keep_spec (hsmall : s.buf.type = .disk → stored.length + 1 < 2 ^ 31) :
    ∃ s', keep s.peeked ld = .ok s' ∧ Holds s' (stored ++ [ld]) := by
  unfold keep
  cases ht : s.buf.type with
  | mem =>
    rw [show s.peeked.buf.type = .mem from ht]
    exact keepMem_spec h hl hroom ht
  | disk =>
    rw [show s.peeked.buf.type = .disk from ht]
    exact keepDisk_spec h hl hroom ht (hsmall ht)

end Keep

/-- A record goes from the queue straight to the modules behind when nothing is stored. -/
theorem pass_spec (h : Holds s []) (hl : s.queue.list = ld :: queue) :
    ∃ s', progress s.peeked ld = .ok s' ∧ Holds s' [] := by
  have hpop : popQueue s.peeked ld = .ok (s.peeked.setQueue (Logqueue.tail s.queue queue)) :=
    popQueue_eq (s := s.peeked) h.wf rfl hl
  refine ⟨{ s.peeked.setQueue (Logqueue.tail s.queue queue) with passed := s.passed ++ [ld] }, ?_, ?_⟩
  · have hneed : popIfNeeded s.peeked ld = popQueue s.peeked ld := if_pos rfl
    rw [progress, hneed, hpop]
    rfl
  · refine ⟨h.inBuffer, h.wf.tail hl, rfl, ?_, h.bytes, h.bounded, h.maxsize, ?_, h.file⟩
    · show ((s.passed ++ [ld]) ++ [] ++ queue).map Logdata.content = s.received.map Logdata.content
      rw [← h.order, hl]
      simp
    · intro x hx
      refine h.storable x ?_
      rw [hl]
      exact mem_cons_of_mem _ hx

theorem takeNext_spec {can_send : Bool} (h : Holds s stored) (hsend : can_send = true → stored = [])
    (hroom : can_send = false → s.buf.buffer_size < s.buf.buffer_maxsize)
    (hsmall : s.buf.type = .disk → stored.length + 1 < 2 ^ 31) : ∃ s',
    takeNext can_send s = .ok s' ∧ Good s' := by
  cases hl : s.queue.list with
  | nil =>
    refine ⟨s, ?_, stored, h⟩
    rw [takeNext, h.wf.peek_nil hl]
    rfl
  | cons ld queue =>
    cases can_send with
    | true =>
      obtain rfl := hsend rfl
      obtain ⟨s', hs, hh⟩ := pass_spec h hl
      refine ⟨s', ?_, [], hh⟩
      rw [takeNext, h.wf.peek_cons hl, ok_bind]
      exact hs
    | false =>
      obtain ⟨s', hs, hh⟩ := keep_spec h hl (hroom rfl) hsmall
      refine ⟨warn s', ?_, stored ++ [ld], hh.warn⟩
      rw [takeNext, h.wf.peek_cons hl, ok_bind]
      exact congrArg (· >>= fun s'' => pure (warn s'')) hs

/-! ## Steps -/

theorem dataAvailable_good (h : Good s) (status : ModuleStatus) (sends : Nat)
    (hcount : s.buf.type = .disk → s.buf.size + 1 < 2 ^ 31) :
    ∃ s', dataAvailable status sends s = .ok s' ∧ Good s' := by
  obtain ⟨stored, h⟩ := h
  unfold dataAvailable
  by_cases hstatus : ¬ (status = .running ∨ status = .paused)
  · rw [if_pos hstatus]
    exact ⟨s, rfl, stored, h⟩
  rw [if_neg hstatus]
  obtain ⟨can_send, s1, stored1, hdrain, h1, hle, hnil, ht⟩ := drain_spec sends h
  rw [hdrain, ok_bind]
  dsimp only
  by_cases hfull : can_send = false ∧ s1.buf.buffer_maxsize ≤ s1.buf.buffer_size
  · rw [if_pos hfull]
    exact ⟨_, rfl, stored1, h1.flags s1.buf.warned true⟩
  rw [if_neg hfull]
  have hunwarned : Holds (unwarn s1) stored1 := h1.flags _ _
  refine takeNext_spec hunwarned hnil ?_ ?_
  · intro hc
    show s1.buf.buffer_size < s1.buf.buffer_maxsize
    have : ¬ s1.buf.buffer_maxsize ≤ s1.buf.buffer_size := fun hle => hfull ⟨hc, hle⟩
    omega
  · intro hdisk
    have hd1 : s1.buf.type = .disk := hdisk
    rw [ht] at hd1
    have hsize := h.size hd1
    have := hcount hd1
    omega

theorem receive_good (h : Good s) (hok : Storable s.buf.type ld) : ∃ s', receive s ld = .ok s' ∧ Good s' := by
  obtain ⟨stored, h⟩ := h
  refine ⟨{ s with
    queue := { s.queue with list := s.queue.list ++ [ld], size := s.queue.size + 1 }
    received := s.received ++ [ld] }, ?_, stored, ?_⟩
  · simp [receive, h.wf.push]
  refine ⟨h.inBuffer, ?_, h.needpop, ?_, h.bytes, h.bounded, h.maxsize, ?_, h.file⟩
  · have hwf := h.wf
    unfold Logqueue.Wf at hwf ⊢
    simp [hwf]
  · show (s.passed ++ stored ++ (s.queue.list ++ [ld])).map Logdata.content =
      (s.received ++ [ld]).map Logdata.content
    rw [← append_assoc, map_append, h.order, map_append]
  · intro x hx
    have hx' : x ∈ stored ++ s.queue.list ∨ x = ld := by
      simpa [or_assoc] using hx
    rcases hx' with hx' | rfl
    · exact h.storable x hx'
    · exact hok

theorem exec_good (s : Pm) (a : Act) (h : Good s) (hok : StepOk s a) : ∃ s', exec s a = .ok s' ∧ Good s' := by
  cases a with
  | receive ld => exact receive_good h hok
  | event status sends => exact dataAvailable_good h status sends hok
  | restart listing => exact hok.elim

/-! ## The start -/

/-- The module after its first start, without files of an earlier one. -/
def Started (s : Pm) : Prop :=
  ∃ name cachedir queue directives s0, queue.list = [] ∧ queue.size = 0 ∧ queue.needpop = false ∧
    config name cachedir queue directives = .ok s0 ∧ start [] s0 = .ok s

theorem diskHolds_empty {d : Disk}
    (hchunks : d.chunks = Function.update (fun _ : Int => none) 1 (some [])) (hpush : d.push_id = 1)
    (hpop : d.pop_id = 1) (hopen : d.push_file = true) (hcount : d.push_count = 0)
    (hlimit : 0 < d.push_limit ∧ d.push_limit < 2 ^ 31) (hfile : d.pop_file = none)
    (hpopped : d.pop_count = 0) (hsize : d.size = 0) : DiskHolds P d [] := by
  refine ⟨[], [], [], ⟨⟨?_, trivial⟩, ?_, ?_, ?_, hopen, ?_, hlimit, ?_,
    by simp, by simp, ?_, ?_, ?_, by simp⟩, rfl⟩
  · rw [hchunks, hpop, Function.update_self]; rfl
  · intro id hne
    rw [hpop, hpush] at hne
    rw [hchunks, Function.update_of_ne (by omega)]
  · rw [hpush, hpop]; rfl
  · rw [hpop]; decide
  · rw [hcount]; rfl
  · exact forall_mem_singleton.mpr (Int.le_of_lt hlimit.1)
  · rw [hpopped]; rfl
  · rw [hfile]; rfl
  · rw [hsize]; rfl

theorem Started.good (h : Started s) : Good s := by
  obtain ⟨name, cachedir, queue, directives, s0, hlist, hqsize, hneed, hconf, hstart⟩ := h
  unfold config at hconf
  split at hconf
  · cases hconf
  rename_i hmax
  cases htype : directives.type with
  | none => rw [htype] at hconf; cases hconf
  | some type =>
    rw [htype] at hconf
    cases hconf
    have hwf : queue.Wf := by unfold Logqueue.Wf; rw [hqsize, hlist]; rfl
    have hpos : 0 < directives.maxSize * 1024 % 2 ^ 64 := by omega
    cases type with
    | mem =>
      cases hstart
      refine ⟨[], ⟨rfl, rfl, rfl⟩, hwf, hneed, ?_, rfl, ⟨fun _ => hpos, by simp⟩, hpos, ?_, rfl⟩
      · simp [hlist]
      · simp [hlist]
    | disk =>
      cases hstart
      refine ⟨[], diskHolds_empty rfl rfl rfl rfl rfl
        (show (0 : Int) < 10000 ∧ (10000 : Int) < 2 ^ 31 by decide)
        rfl rfl rfl, hwf, hneed, ?_, rfl, ⟨fun _ => hpos, by simp⟩, hpos, ?_, rfl⟩
      · simp [firstChunk, hlist]
      · simp [firstChunk, hlist]

def newDisk : Pm :=
  { name := "buffer"
    buf := ⟨.disk, 0, 1024, 0, ⟨[], 0, 0, "buffer:mem", "cache", false⟩, false, false, "cache", 0,
      true, 0, 1, 10000,
      none, 1, 0⟩
    chunks := Function.update (fun _ => none) 1 (some [])
    fs := fun _ => none
    queue := ⟨[], 0, 100, "buffer", "cache", false⟩
    passed := []
    received := [] }

theorem newDisk_started : Started newDisk :=
  ⟨"buffer", "cache", ⟨[], 0, 100, "buffer", "cache", false⟩, ⟨1, 0, some .disk, none⟩, _, rfl, rfl,
    rfl, rfl, rfl⟩

/-- Every run of a started module in which each record on disk is below 4 GiB and
the count of records on disk fits an `int` completes, and keeps order, accounting
and bound in every state. -/
theorem order_and_accounting (s : Pm) (h : Started s) (as : List Act)
    (hok : Meets exec StepOk s as) : Completes exec Conserved s as :=
  (completes_of_step exec_good h.good hok).mono fun _ => Good.conserved

/-- Two records are stored while the modules behind are full, and passed on when they are not. -/
theorem order_and_accounting_two_records :
    Completes exec Conserved newDisk [.receive (sampleRecord 5), .receive logdataNew,
      .event .running 0, .event .running 0, .event .running 2] := by
  have hsize : ∀ (as : List Act) (s : Pm) (n : Int), run exec newDisk as = .ok s →
      (run exec newDisk as).map (fun s => s.buf.size) = .ok n → s.buf.size = n := by
    intro as s n hs hn
    rw [hs] at hn
    exact Except.ok.inj hn
  refine order_and_accounting newDisk newDisk_started _ ⟨?_, fun s1 h1 => ?_⟩
  · exact ⟨(sampleRecord_encodable 5).roundTrips, by simp [sampleRecord_size]⟩
  refine ⟨⟨logdataNew_encodable.roundTrips, by simp [logdataNew_size]⟩, fun s2 h2 => ?_⟩
  have hrun : run exec newDisk [.receive (sampleRecord 5), .receive logdataNew] = .ok s2 := by
    rw [run_cons, h1, ok_bind, run_cons, h2]
    rfl
  refine ⟨fun _ => ?_, fun s3 h3 => ⟨fun _ => ?_, fun s4 h4 => ⟨fun _ => ?_, fun _ _ => trivial⟩⟩⟩
  · rw [hsize _ s2 0 hrun (by decide)]
    decide
  · rw [hsize [.receive (sampleRecord 5), .receive logdataNew, .event .running 0] s3 1 ?_ (by decide)]
    · decide
    · rw [run_cons, h1, ok_bind, run_cons, h2, ok_bind, run_cons, h3]
      rfl
  · rw [hsize [.receive (sampleRecord 5), .receive logdataNew, .event .running 0,
      .event .running 0] s4 2 ?_ (by decide)]
    · decide
    · rw [run_cons, h1, ok_bind, run_cons, h2, ok_bind, run_cons, h3, ok_bind, run_cons, h4]
      rfl

/-! ## Records of 4 GiB -/

/-- The bytes of a record, cut, are no record: the decoder would have to stop behind
the bytes it was given. -/
theorem readStored_cut (hrt : RoundTrips ld) {bytes : Nat} (hlt : bytes < (encoded ld).length)
    (r : Logdata × Nat) : readStored (encoded ld) bytes ≠ .ok r := by
  intro hr
  obtain ⟨ld', n⟩ := r
  unfold readStored at hr
  split at hr
  · cases hr
  obtain ⟨_, -, hdec⟩ := bind_eq_ok.mp hr
  have hlen : ((encoded ld).take bytes).length = bytes := by rw [length_take]; omega
  have hall := logdataFromMembuf_mono (t := (encoded ld).drop bytes) (Nat.le_of_lt hlt) hdec
  rw [take_append_drop, hrt.encodes.read] at hall
  have hn : (encoded ld).length = n := congrArg Prod.snd (Except.ok.inj hall)
  have hsafe : Safe ((encoded ld).take bytes).length
      (logdataFromMembuf ((encoded ld).take bytes) ((encoded ld).take bytes).length) := by
    apply logdataFromMembuf_safe
    intro ho
    have hfault := logdataFromMembuf_overreads ho
    rw [hlen, hdec] at hfault
    cases hfault
  rw [hlen, hdec] at hsafe
  rcases hsafe with ⟨m, hm⟩ | ⟨x, c, hc, hle⟩
  · cases hm
  · cases hc
    omega

variable (hge : 2 ^ 32 ≤ (encoded ld).length)
include hge

theorem not_readable_of_large {x : Logdata} (hrt : RoundTrips ld) (hx : framed x = framed ld) :
    ¬ Readable x := by
  intro h
  obtain ⟨ld', n, hread, -⟩ := h
  have hnat := leNat_framed ld []
  have hdrop := framed_drop ld []
  rw [append_nil] at hnat hdrop
  rw [append_nil] at hdrop
  rw [hx, hnat, hdrop] at hread
  exact readStored_cut hrt (by omega) _ hread

/-- Such a record on disk, with nothing else received, is not conserved. -/
theorem not_conserved_of_large (ht : s.buf.type = .disk) (hd : DiskHolds P s.disk [ld])
    (hrt : RoundTrips ld) (hpassed : s.passed = [])
    (hqueue : s.queue.list = []) (hrecv : s.received = [ld]) : ¬ Conserved s := by
  intro hc
  obtain ⟨stored, hstores, horder, -⟩ := hc
  obtain ⟨hunread, hreadable, -⟩ := (stores_disk ht).mp hstores
  rw [hpassed, hqueue, hrecv] at horder
  -- one record is stored, and its frame is the one on disk
  have hone : stored.length = 1 := by
    have := congrArg length horder
    simpa using this
  obtain ⟨x, rfl⟩ := length_eq_one_iff.mp hone
  rw [hd.unread] at hunread
  have hx : framed x = framed ld := by simpa using hunread.symm
  exact not_readable_of_large hge hrt hx (hreadable x mem_cons_self)

theorem store_large (hrt : RoundTrips ld) :
    ∃ s, run exec newDisk [.receive ld, .event .running 0] = .ok s ∧ ¬ Conserved s := by
  let s1 : Pm := { newDisk.setQueue ⟨[ld], 1, 100, "buffer", "cache", false⟩ with received := [ld] }
  have hin : DiskHolds (fun _ => True) (unwarn s1).disk [] :=
    diskHolds_empty rfl rfl rfl rfl rfl (show (0 : Int) < 10000 ∧ (10000 : Int) < 2 ^ 31 by decide) rfl rfl rfl
  obtain ⟨d, hkeep, hd⟩ := keepDisk_eq (s := unwarn s1) hin rfl rfl hrt trivial (by decide)
  refine ⟨(unwarn s1).keptOnDisk d [] ld, ?_, ?_⟩
  · show (takeNext false (unwarn s1) >>= fun s' => run exec s' []) = _
    have hnext : takeNext false (unwarn s1) = (keepDisk (unwarn s1).peeked ld >>= fun s' =>
      pure (warn s')) := rfl
    rw [hnext, hkeep]
    rfl
  · exact not_conserved_of_large hge rfl hd hrt rfl rfl rfl

omit hge

/-- A record of 4100 strings just below 1 MiB each survives the codec, but is not in
the buffer after it was stored there. -/
theorem stored_record_unreadable :
    RoundTrips (longRecord 4100 1048575) ∧ Started newDisk ∧
      ∃ s, run exec newDisk [.receive (longRecord 4100 1048575), .event .running 0] = .ok s ∧
      ¬ Conserved s := by
  have hlim : 1048575 < stringLimit := by decide
  have hrt := (longRecord_encodable (show 4100 < 32767 by decide) hlim).roundTrips
  have hlarge : 2 ^ 32 ≤ (encoded (longRecord 4100 1048575)).length :=
    Nat.le_trans (by decide) (longRecord_length (by decide) hlim)
  exact ⟨hrt, newDisk_started, store_large hlarge hrt⟩

end Nxlog.L4
