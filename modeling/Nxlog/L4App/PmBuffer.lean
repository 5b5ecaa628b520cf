import Nxlog.L4App.Routing

/-!
# The buffer processor (`modules/processor/buffer/pm_buffer.c`)

`pm_buffer` passes records on while the modules behind it can take them and
keeps them otherwise, in memory (`Mem`) or in a chain of chunk files (`Disk`).
Chunk files are numbered. New records are appended to the one with number
`push_id`; the oldest are read from the one with number `pop_id`, which is removed
when it has been read to its end.

`Pm` is the module with its queue, its files and what it has passed on. File reads
and writes are complete and faithful. `nx_module_can_send` is asked before every
record; a call of `dataAvailable` is given how often it will say yes. The module
has no `Exec` of its own.
-/
namespace Nxlog.L4
open L1 L2

/-! ## The module -/

/-- `nx_pm_buffer_type`. -/
inductive BufferType where
  | mem
  | disk
  deriving DecidableEq

/-- An `int` that wraps around. -/
def int32 (i : Int) : Int := i.bmod (2 ^ 32)

/-- `nx_pm_buffer_conf_t`. `pop_file` is the position in the open chunk; `push_file`
is always written at its end. `pop_pos` is never read and left out. -/
structure PmBuffer where
  type : BufferType
  buffer_size : Nat
  buffer_maxsize : Nat
  buffer_warnlimit : Nat
  queue : Logqueue
  warned : Bool
  warned_full : Bool
  basedir : String
  size : Int
  push_file : Bool
  push_count : Int
  push_id : Int
  push_limit : Int
  pop_file : Option Nat
  pop_id : Int
  pop_count : Int

abbrev Chunks := Int → Option Bytes

structure Pm where
  name : String
  buf : PmBuffer
  chunks : Chunks
  fs : Fs
  queue : Logqueue
  /-- given to the modules behind -/
  passed : List Logdata
  /-- ghost: put into the module's queue -/
  received : List Logdata

variable (s : Pm)

def Pm.setQueue (queue : Logqueue) : Pm := { s with queue }

def Pm.setBufQueue (queue : Logqueue) : Pm := { s with buf := { s.buf with queue } }

def Pm.setBufferSize (buffer_size : Nat) : Pm := { s with buf := { s.buf with buffer_size } }

def chunkFile (id : Int) : String := s.buf.basedir ++ "/" ++ s.name ++ "." ++ toString id ++ ".q"

/-! ## Chunk files -/

/-- pm_buffer.c:53-62: a full chunk is closed. -/
def rollover : Res Pm :=
  if s.buf.push_limit ≤ s.buf.push_count then do
    Res.assert s.buf.push_file "modconf->push_file != NULL"
    return { s with buf := { s.buf with push_file := false, push_id := s.buf.push_id + 1, push_count := 0 } }
  else .ok s

/-- pm_buffer.c:63-74: the chunk to be written is opened with `APR_TRUNCATE`. -/
def openPush : Pm :=
  if s.buf.push_file then s
  else
    { s with
      buf := { s.buf with push_file := true }
      chunks := Function.update s.chunks s.buf.push_id (some []) }

/-- pm_buffer.c:81-83: `apr_file_write` and `(modconf->push_count)++`. -/
def writeChunk (frame : Bytes) : Pm :=
  { s with
    buf := { s.buf with push_count := s.buf.push_count + 1 }
    chunks := Function.update s.chunks s.buf.push_id ((s.chunks s.buf.push_id).map (· ++ frame)) }

variable (logdata : Logdata)

/-- mirrors pm_buffer.c:36-101 (`pm_buffer_push_disk`). -/
def pushDisk : Res (Nat × Pm) := do
  let s ← rollover s
  let s := openPush s
  let frame ← frameRecord logdata
  let s := writeChunk s frame
  Res.assert (0 ≤ s.buf.size) "modconf->size >= 0"
  return (frame.length, { s with buf := { s.buf with size := int32 (s.buf.size + 1) } })

/-- `apr_file_open(&(modconf->pop_file), ...)` -/
def openChunk (msg : String) : Res Pm :=
  match s.chunks s.buf.pop_id with
  | none => Res.throw ("couldn't open disk buffer file " ++ chunkFile s s.buf.pop_id ++ msg)
  | some _ => .ok { s with buf := { s.buf with pop_file := some 0 } }

/-- pm_buffer.c:122-141: `none` if there is nothing to read. -/
def openPop : Res (Option Pm) :=
  match s.buf.pop_file with
  | some _ => .ok (some s)
  | none => do
    Res.assert (0 < s.buf.push_id) "modconf->push_id > 0"
    Res.assert (0 < s.buf.pop_id) "modconf->pop_id > 0"
    if s.buf.push_id < s.buf.pop_id then return none
    else do
      let s ← openChunk s " for reading in pm_buffer_pop_disk()"
      return some s

/-- pm_buffer.c:145-157: everything written has been read. -/
def caughtUp : Res Bool :=
  if s.buf.push_id = s.buf.pop_id then do
    Res.assert (s.buf.pop_count ≤ s.buf.push_count) "modconf->pop_count <= modconf->push_count"
    return s.buf.pop_count = s.buf.push_count
  else do
    Res.assert (s.buf.pop_id < s.buf.push_id) "modconf->push_id > modconf->pop_id"
    return false

def chunkRest : Bytes := ((s.chunks s.buf.pop_id).getD []).drop (s.buf.pop_file.getD 0)

/-- pm_buffer.c:161-193: at the end of a chunk, remove it and open the next one. -/
def nextChunk : Res Pm :=
  if chunkRest s = [] then do
    Res.assert (s.buf.pop_id < s.buf.push_id) "modconf->push_id > modconf->pop_id"
    let s := { s with
      buf := { s.buf with pop_file := none, pop_id := s.buf.pop_id + 1 }
      chunks := Function.update s.chunks s.buf.pop_id none }
    let s ← openChunk s " for reading"
    return { s with buf := { s.buf with pop_count := 0 } }
  else .ok s

/-- pm_buffer.c:200-206: read and decode `bytes` bytes. -/
def readStored (rest : Bytes) (bytes : Nat) : Res (Logdata × Nat) :=
  if 0 < bytes ∧ rest = [] then Res.throw "failed to read logdata from disk buffer file"
  else do
    Res.assert (bytes ≤ rest.length) "bytesread == bytes"
    logdataFromMembuf (rest.take bytes) bytes

/-- pm_buffer.c:194-212: the next record of the chunk, unless it is at its end. -/
def popRecord : Res (Nat × Option Logdata × Pm) :=
  if chunkRest s = [] then .ok (0, none, s)
  else do
    Res.assert (4 ≤ (chunkRest s).length) "bytesread == 4"
    let bytes := leNat ((chunkRest s).take 4)
    let (logdata, bytesread) ← readStored ((chunkRest s).drop 4) bytes
    return (bytesread + 4, some logdata,
      { s with buf := { s.buf with
        pop_file := some (s.buf.pop_file.getD 0 + 4 + bytes)
        pop_count := s.buf.pop_count + 1
        size := int32 (s.buf.size - 1) } })

/-- mirrors pm_buffer.c:105-225 (`pm_buffer_pop_disk`). -/
def popDisk : Res (Nat × Option Logdata × Pm) := do
  let r ← openPop s
  match r with
  | none => return (0, none, s)
  | some s => do
    let up ← caughtUp s
    if up then return (0, none, s)
    else do
      let s ← nextChunk s
      popRecord s

/-! ## Passing on and keeping -/

def popQueue : Res Pm := do
  let (queue, _) ← s.queue.pop logdata
  return s.setQueue queue

/-- common/module.c:681-684: a record that was peeked at leaves the queue. -/
def popIfNeeded : Res Pm := if s.queue.needpop then popQueue s logdata else .ok s

/-- common/module.c:663-777 (`nx_module_progress_logdata`) on the side of the module; the whole
function is `progressLogdata`, and `Progresses.progress` says that this is what it does here. -/
def progress : Res Pm := do
  let s ← popIfNeeded s logdata
  return { s with passed := s.passed ++ [logdata] }

/-- `ASSERT(modconf->buffer_size >= bytesread); modconf->buffer_size -= bytesread;` -/
def lower (bytesread : Nat) : Res Pm := do
  Res.assert (bytesread ≤ s.buf.buffer_size) "modconf->buffer_size >= bytesread"
  return s.setBufferSize (s.buf.buffer_size - bytesread)

/-- pm_buffer.c:251-263: pass on the oldest record in memory. -/
def sendMem : Res (Bool × Pm) := do
  let (r, queue) ← s.buf.queue.peek
  let s := s.setBufQueue queue
  match r with
  | none => return (false, s)
  | some logdata => do
    let n ← logdataSerializedSize logdata
    let s ← lower s (n + 4)
    let (queue, _) ← s.buf.queue.pop logdata
    let s ← progress (s.setBufQueue queue) logdata
    return (true, s)

/-- pm_buffer.c:265-276: pass on the oldest record on disk. -/
def sendDisk : Res (Bool × Pm) := do
  let (bytesread, r, s) ← popDisk s
  match r with
  | none => return (false, s)
  | some logdata => do
    let s ← lower s bytesread
    let s ← progress s logdata
    return (true, s)

def sendStored : Res (Bool × Pm) :=
  match s.buf.type with
  | .mem => sendMem s
  | .disk => sendDisk s

/-- `while ( (can_send = nx_module_can_send(module, 1.0)) == TRUE )`, which is true
`n` times: `can_send` when the loop ends. -/
def drain : Nat → Pm → Res (Bool × Pm)
  | 0, s => .ok (false, s)
  | n + 1, s => do
    let (more, s) ← sendStored s
    if more then drain n s else return (true, s)

/-- pm_buffer.c:319-323: keep a record of the module's queue in memory. -/
def keepMem : Res Pm := do
  let n ← logdataSerializedSize logdata
  let s ← popQueue (s.setBufferSize (s.buf.buffer_size + (n + 4))) logdata
  let (queue, _) ← s.buf.queue.push logdata
  return s.setBufQueue queue

/-- pm_buffer.c:325-332: keep a record of the module's queue on disk. -/
def keepDisk : Res Pm := do
  let (written, s) ← pushDisk s logdata
  let s ← popQueue s logdata
  logdataFree logdata
  return s.setBufferSize (s.buf.buffer_size + written)

def keep : Res Pm :=
  match s.buf.type with
  | .mem => keepMem s logdata
  | .disk => keepDisk s logdata

/-- pm_buffer.c:334-343. -/
def warn : Pm :=
  if s.buf.warned = false ∧ 0 < s.buf.buffer_warnlimit ∧ s.buf.buffer_warnlimit ≤ s.buf.buffer_size then
    { s with buf := { s.buf with warned := true } }
  else s

/-- pm_buffer.c:293-301. -/
def unwarn : Pm :=
  { s with buf := { s.buf with
    warned_full := s.buf.warned_full && !decide (s.buf.buffer_size ≤ s.buf.buffer_maxsize / 2)
    warned := s.buf.warned && !decide (s.buf.buffer_size ≤ s.buf.buffer_warnlimit / 2) } }

/-- pm_buffer.c:303-347: the next record of the module's queue is passed on or kept. -/
def takeNext (can_send : Bool) (s : Pm) : Res Pm := do
  let (r, queue) ← s.queue.peek
  let s := s.setQueue queue
  match r with
  | none => return s
  | some logdata =>
    if can_send then progress s logdata
    else do
      let s ← keep s logdata
      return warn s

/-- mirrors pm_buffer.c:229-348 (`pm_buffer_data_available`), with `nx_module_can_send`
true `sends` times. -/
def dataAvailable (status : ModuleStatus) (sends : Nat) (s : Pm) : Res Pm :=
  if ¬ (status = .running ∨ status = .paused) then .ok s
  else do
    let (can_send, s) ← drain sends s
    if can_send = false ∧ s.buf.buffer_maxsize ≤ s.buf.buffer_size then
      return { s with buf := { s.buf with warned_full := true } }
    else takeNext can_send (unwarn s)

def receive : Res Pm := do
  let (queue, _) ← s.queue.push logdata
  return { s with queue, received := s.received ++ [logdata] }

/-! ## Configuration -/

/-- What `pm_buffer_config` has read from the directives: sizes in kbytes, 0 if not
given. -/
structure Directives where
  maxSize : Nat
  warnLimit : Nat
  type : Option BufferType
  directory : Option String

/-- mirrors pm_buffer.c:352-460 (`pm_buffer_config`) after the loop over the
directives, for a module with an empty queue and no files. The sizes are
`uint64_t`. -/
def config (name cachedir : String) (queue : Logqueue) (d : Directives) : Res Pm :=
  if d.maxSize * 1024 % 2 ^ 64 = 0 then Res.throw ("MaxSize parameter must be defined for " ++ name)
  else
    match d.type with
    | none => Res.throw ("Type parameter (Mem|Disk) must be defined for " ++ name)
    | some type => .ok
      { name, queue
        buf :=
          { type
            buffer_size := 0
            buffer_maxsize := d.maxSize * 1024 % 2 ^ 64
            buffer_warnlimit := d.warnLimit * 1024 % 2 ^ 64
            queue := ⟨[], 0, 0, name ++ ":mem", cachedir, false⟩
            warned := false
            warned_full := false
            basedir := d.directory.getD cachedir
            size := 0
            push_file := false
            push_count := 0
            push_id := 0
            push_limit := 10000
            pop_file := none
            pop_id := 0
            pop_count := 0 }
        chunks := fun _ => none
        fs := fun _ => none
        passed := []
        received := [] }

/-! ## Starting and stopping -/

/-- The loop over one chunk file in `pm_buffer_start`: `total`, the length buffer
(which a short read leaves partly as it was) and the counters. -/
def scanFile : Nat → Bytes → Bytes → Nat → PmBuffer → Res (Nat × Bytes × PmBuffer)
  | 0, _, _, _, _ => Res.hang
  | fuel + 1, file, lenbuf, total, b =>
    if file = [] then .ok (total, lenbuf, b)
    else
      let lenbuf := file.take 4 ++ lenbuf.drop (file.take 4).length
      let bytes := leNat lenbuf
      scanFile fuel ((file.drop 4).drop bytes) lenbuf (total + (file.take 4).length)
        { b with size := int32 (b.size + 1), buffer_size := b.buffer_size + bytes + 4 }

/-- pm_buffer.c:560-567: the greatest and the smallest number. -/
def noteId (b : PmBuffer) (tmp_id : Int) : PmBuffer :=
  { b with
    push_id := if b.push_id < tmp_id then tmp_id else b.push_id
    pop_id := if b.pop_id = 0 ∨ tmp_id < b.pop_id then tmp_id else b.pop_id }

/-- The loop over the directory; `tmp_id` is an `int`. -/
def scanDir : List Int → Bytes → Pm → Res Pm
  | [], _, s => .ok s
  | id :: ids, lenbuf, s =>
    match s.chunks id with
    | none => Res.throw ("couldn't open disk buffer file " ++ chunkFile s id ++ " for reading")
    | some file => do
      let (total, lenbuf, buf) ← scanFile (file.length + 1) file lenbuf 0 s.buf
      if total = 0 then scanDir ids lenbuf { s with buf, chunks := Function.update s.chunks id none }
      else scanDir ids lenbuf { s with buf := noteId buf (int32 id) }

/-- pm_buffer.c:574-588: a new chunk to write to. -/
def firstChunk : Pm :=
  { s with
    buf := { s.buf with
      push_id := s.buf.push_id + 1
      push_file := true
      push_count := 0
      pop_id := if s.buf.pop_id = 0 then 1 else s.buf.pop_id }
    chunks := Function.update s.chunks (s.buf.push_id + 1) (some []) }

/-- mirrors pm_buffer.c:464-608 (`pm_buffer_start`); `listing` are the numbers of
the chunk files in the order of the directory. -/
def start (listing : List Int) (s : Pm) : Res Pm :=
  match s.buf.type with
  | .disk => do
    let s ← scanDir listing [0, 0, 0, 0] s
    return firstChunk s
  | .mem =>
    match fromFile s.buf.queue s.fs with
    | (.ok n, queue, fs) => .ok { s with buf := { s.buf with queue, buffer_size := n }, fs }
    | (.error e, _, _) => .error e

/-- pm_buffer.c:630-645: the chunk that was read is removed if nothing is stored. -/
def dropChunk : Pm :=
  if s.buf.size = 0 ∧ s.buf.pop_file.isSome then
    { s with chunks := Function.update s.chunks s.buf.pop_id none }
  else s

/-- mirrors pm_buffer.c:612-671 (`pm_buffer_stop`). -/
def stop : Res Pm :=
  match s.buf.type with
  | .disk =>
    let s := dropChunk s
    .ok { s with buf := { s.buf with
      pop_file := none, push_file := false, pop_id := 0, push_id := 0, pop_count := 0, push_count := 0 } }
  | .mem =>
    match toFile s.buf.queue s.fs with
    | (.ok _, fs) => .ok { s with fs }
    | (.error e, _) => .error e

/-! ## Runs -/

inductive Act where
  | receive (logdata : Logdata)
  /-- `NX_EVENT_DATA_AVAILABLE` or `NX_EVENT_READ` -/
  | event (status : ModuleStatus) (sends : Nat)
  | restart (listing : List Int)

def exec : Act → Res Pm
  | .receive logdata => receive s logdata
  | .event status sends => dataAvailable status sends s
  | .restart listing => do
    let s ← stop s
    start listing s

end Nxlog.L4
