import Nxlog.L3Protocol.LineReader

/-!
# Reading files (`input/file/im_file.c`)

The module has a hash of the files it knows, of which at most ActiveFiles are open. It reads the
open files in turn. A file is closed to make room for another one, when it is idle and CloseWhenIdle
is set, and when the module stops; its position is then kept in the file structure, and with SavePos
in the config cache, beside the number of the last record.

An event of the run is one turn of the loop of `im_file_read`, one call of `im_file_check_file` or
of `im_file_add_file`, the stop of the module, or a change of the disk between two of them. The
loops over the files of a directory or of the hash, and what the functions return to them, only
decide which of these events come, and when.

Seeking in an open file and asking for its size do not fail, and `apr_stat` fills in all that it is
asked for. A reader is any function on the input (`InputFunc`); what is under way in the cache file
is the subject of `ConfigCache`.

* `readTurn`, `checkFile`, `addFile`, `stop`: the functions of the module.
* `State.step`: one event.
-/
namespace Nxlog.L4.ImFile
open L1 L2 L3

abbrev Name := Bytes

/-- `line_number_key_name`, the name with "Count" behind it. -/
def countKey (name : Name) : Name := name ++ ascii "Count"

def lineNumberKey : CStr := ⟨ascii "LineNumber", by decide⟩

/-! ## The disk -/

/-- What a name leads to: `ENOENT`, any other error, or a file. -/
inductive Lookup where
  | missing
  | denied
  | inode (i : Nat)
  deriving DecidableEq

/-- What `apr_file_read` does: it reads, it returns `EAGAIN`, or it fails. -/
inductive ReadStatus where
  | ready
  | again
  | failed
  deriving DecidableEq

/-- `entry` is what `apr_stat` finds, and `readable` says of which files `apr_file_open`
succeeds. -/
structure Disk where
  entry : Name → Lookup
  readable : Nat → Bool
  data : Nat → Bytes
  mtime : Nat → Int
  status : Nat → ReadStatus
  now : Int

def Disk.size (disk : Disk) (i : Nat) : Int := (disk.data i).length

/-! ## The module -/

/-- An input and its `nx_module_input_func_decl_t`: a new one, how many bytes are in its buffer, the
buffer prepared for a read and how many bytes fit, what happens to them, and the functions of the
reader. -/
structure InputFunc (ι : Type) where
  new : ι
  buflen : ι → Int
  room : ι → Res (ι × Nat)
  receive : ι → Bytes → ι
  func : ι → Res (Option Logdata × ι)
  flush : Option (ι → Res (Option Logdata × ι))

/-- `nx_module_input_t` with `desc.f`, the open file and its offset. -/
structure Opened (ι : Type) where
  input : ι
  inode : Nat
  offset : Nat

/-- `nx_im_file_input_t`. -/
structure FileInput (ι : Type) where
  input : Option (Opened ι)
  mtime : Int
  new_mtime : Int
  inode : Nat
  filepos : Int
  size : Int
  new_size : Int
  num_eof : Nat
  blacklist_until : Int
  blacklist_interval : Int
  current_line_number : Int64

/-- `apr_pcalloc`, with the position and the number. -/
def FileInput.new {ι : Type} (filepos : Int) (linenumber : Int64) : FileInput ι :=
  ⟨none, 0, 0, 0, filepos, 0, 0, 0, 0, 0, linenumber⟩

/-- `nx_im_file_conf_t`, as far as it does not change. -/
structure Conf (ι : Type) where
  inputfunc : InputFunc ι
  filename_const : Bool
  savepos : Bool
  closewhenidle : Bool
  renamecheck : Bool
  active_files : Nat

/-- What is delivered with which number, what is found out about a file, and that it is let go
without SavePos. -/
inductive Note where
  | record (name : Name) (number : Int64) (logdata : Logdata)
  | rotated (name : Name)
  | truncated (name : Name)
  | deleted (name : Name)
  | forgotten (name : Name)

/-- The disk, the module and the config cache. `files` has the keys of the hash in the order in
which it is walked, and `file` the structures. `wildcard` says whether the File directive has
wildcards. -/
structure State (ι : Type) where
  disk : Disk
  files : List Name
  file : Name → FileInput ι
  open_files : List Name
  num_open_files : Int
  currsrc : Option Name
  wildcard : Bool
  cache : Name → Option Int64
  out : List Note

section Functions

variable {ι : Type}

def State.setFile (s : State ι) (name : Name) (f : FileInput ι) : State ι :=
  { s with file := fun n => if n = name then f else s.file n }

def State.setInput (s : State ι) (name : Name) (opened : Option (Opened ι)) : State ι :=
  s.setFile name { s.file name with input := opened }

/-- `nx_config_cache_set_int`. -/
def State.cacheSet (s : State ι) (key : Name) (value : Int64) : State ι :=
  { s with cache := fun k => if k = key then some value else s.cache k }

/-- `nx_config_cache_remove`. -/
def State.cacheRemove (s : State ι) (key : Name) : State ι :=
  { s with cache := fun k => if k = key then none else s.cache k }

def State.note (s : State ι) (note : Note) : State ι := { s with out := s.out ++ [note] }

/-- `apr_hash_set(imconf->files, name, APR_HASH_KEY_STRING, NULL)`. -/
def State.forget (s : State ι) (name : Name) : State ι := { s with files := s.files.filter (· ≠ name) }

/-- mirrors input/file/im_file.c:31-37 (`im_file_linenumber_recorder`), the same in 57-61. The limit
is `~(sizeof(int64_t) * 8 - 1)`, an unsigned number, so the comparison is unsigned: it is met by the
numbers from -64 to -1. A signed overflow is undefined. -/
def nextLineNumber (n : Int64) : Res Int64 :=
  let n := if (0 : UInt64) - 64 ≤ n.toUInt64 then 0 else n
  if n = Int64.maxValue then Res.fault else return n + 1

/-- The number is set, and `nx_module_add_logdata_input`. -/
def deliver (name : Name) (logdata : Logdata) (s : State ι) : Res (State ι) := do
  let number ← nextLineNumber (s.file name).current_line_number
  let logdata ← setFieldValue logdata lineNumberKey ⟨TRUE, .integer number⟩
  return (s.setFile name { s.file name with current_line_number := number }).note (.record name number logdata)

variable (conf : Conf ι)

def callReader (f : ι → Res (Option Logdata × ι)) (name : Name) (opened : Opened ι) (s : State ι) :
    Res (State ι × Bool) := do
  let (r, input) ← f opened.input
  let s := s.setInput name (some { opened with input := input })
  match r with
  | none => return (s, false)
  | some logdata => do
    let s ← deliver name logdata s
    return (s, true)

variable (name : Name) (s : State ι)

/-- input/file/im_file.c:51-63 and 996-1003. -/
def flushInput : Res (State ι) :=
  match (s.file name).input, conf.inputfunc.flush with
  | some opened, some flush => do
    let (s, _) ← callReader flush name opened s
    return s
  | _, _ => return s

def position (opened : Opened ι) : Int :=
  if 0 < conf.inputfunc.buflen opened.input ∧ conf.inputfunc.buflen opened.input ≤ opened.offset then
    opened.offset - conf.inputfunc.buflen opened.input
  else opened.offset

/-- mirrors input/file/im_file.c:186-206 (`im_file_input_get_filepos`). -/
def getFilepos : Res (State ι) :=
  match (s.file name).input with
  | none => .error (.assert "file->input != NULL")
  | some opened => return s.setFile name { s.file name with filepos := position conf opened }

def nextFile (open_files : List Name) (name : Name) : Option Name :=
  (open_files.dropWhile (· ≠ name)).tail.head?

/-- mirrors input/file/im_file.c:39-81 (`im_file_input_close`). -/
def inputClose : Res (State ι) := do
  let s := if s.currsrc = some name then { s with currsrc := nextFile s.open_files name } else s
  let s ← flushInput conf name s
  match (s.file name).input with
  | none => return s
  | some _ => do
    let s ← getFilepos conf name s
    let s := s.setInput name none
    let s := { s with open_files := s.open_files.filter (· ≠ name), num_open_files := s.num_open_files - 1 }
    if 0 ≤ s.num_open_files then return s else .error (.assert "imconf->num_open_files >= 0")

/-- mirrors input/file/im_file.c:83-92 (`im_file_input_blacklist`). -/
def inputBlacklist : Res (State ι) := do
  let s ← inputClose conf name s
  let f := s.file name
  let interval := if f.blacklist_interval = 0 then 1 else f.blacklist_interval * 2
  return s.setFile name
    { f with blacklist_interval := interval, blacklist_until := s.disk.now + interval * 1000000 }

/-- mirrors input/file/im_file.c:94-150 (`im_file_fill_buffer`): `*got_eof`. If the read fails the
input is freed, and then `input->buflen` is written. -/
def fillBuffer : Res (State ι × Bool) :=
  match (s.file name).input with
  | none => .error (.assert "input != NULL")
  | some opened => do
    let (input, len) ← conf.inputfunc.room opened.input
    let f := { s.file name with blacklist_until := 0, blacklist_interval := 0 }
    match s.disk.status opened.inode with
    | .ready =>
      let data := ((s.disk.data opened.inode).drop opened.offset).take len
      if len ≠ 0 ∧ data = [] then
        return (s.setFile name { f with input := some { opened with input := input } }, true)
      else
        let opened := ⟨conf.inputfunc.receive input data, opened.inode, opened.offset + data.length⟩
        return (s.setFile name { f with input := some opened }, false)
    | .again => return (s.setInput name (some { opened with input := input }), false)
    | .failed => Res.fault

/-- input/file/im_file.c:270-298: what is known of an open file. -/
def updateInfo (o : Opened ι) (s : State ι) : State ι :=
  let f := s.file name
  let size := s.disk.size o.inode
  let f := { f with inode := o.inode, mtime := s.disk.mtime o.inode, new_mtime := s.disk.mtime o.inode, size := size,
                    new_size := size, num_eof := 0 }
  if 0 < f.filepos ∧ f.filepos > size then
    (s.setFile name { f with filepos := 0, input := some { o with offset := 0 } }).note (.truncated name)
  else s.setFile name f

/-- input/file/im_file.c:270-309: the file is open, and was not before if `opened`. -/
def statInput (opened : Bool) (s : State ι) : Res (State ι) :=
  match (s.file name).input with
  | none => .error (.assert "input != NULL")
  | some o =>
    let s := updateInfo name o s
    if opened ∧ s.num_open_files > conf.active_files then inputClose conf name s else return s

/-- input/file/im_file.c:311-333: there is no such file. -/
def openMissing (existed : Bool) (s : State ι) : Res (State ι) :=
  if existed ∨ ¬ conf.filename_const ∨ ¬ s.wildcard then
    if ¬ existed ∧ conf.filename_const then inputBlacklist conf name s
    else do
      let s := (s.forget name).cacheRemove name
      let s ← inputClose conf name s
      return if existed then s.note (.deleted name) else s
  else inputBlacklist conf name s

/-- input/file/im_file.c:253-263: the position in a file that is opened. -/
def startPos (filepos : Int) (readfromlast : Bool) (size : Int) : Int :=
  if 0 < filepos then filepos else if readfromlast then size else filepos

/-- input/file/im_file.c:240-267. -/
def openFile (readfromlast : Bool) (i : Nat) (s : State ι) : State ι :=
  let filepos := startPos (s.file name).filepos readfromlast (s.disk.size i)
  let s := s.setFile name
    { s.file name with input := some ⟨conf.inputfunc.new, i, filepos.toNat⟩, filepos := filepos, blacklist_until := 0,
                       blacklist_interval := 0 }
  { s with open_files := s.open_files ++ [name], num_open_files := s.num_open_files + 1 }

def blacklisted (f : FileInput ι) (now : Int) : Prop := f.blacklist_until ≠ 0 ∧ f.blacklist_until > now

instance (f : FileInput ι) (now : Int) : Decidable (blacklisted f now) := by
  unfold blacklisted
  infer_instance

/-- mirrors input/file/im_file.c:212-341 (`im_file_input_open`). -/
def inputOpen (readfromlast existed : Bool) (s : State ι) : Res (State ι) :=
  let f := s.file name
  if blacklisted f s.disk.now then return s
  else
    match f.input with
    | some _ => statInput conf name false s
    | none =>
      match s.disk.entry name with
      | .missing => openMissing conf name existed s
      | .denied => inputBlacklist conf name s
      | .inode i =>
        if s.disk.readable i then statInput conf name true (openFile conf name readfromlast i s)
        else inputBlacklist conf name s

/-- mirrors input/file/im_file.c:344-363 (`im_file_input_check_close`). -/
def checkClose : Res (State ι × Bool) :=
  if s.num_open_files < conf.active_files then return (s, true)
  else
    match s.open_files.find? fun n => 0 < (s.file n).num_eof with
    | none => return (s, false)
    | some name => do
      let s ← getFilepos conf name s
      let s ← inputClose conf name s
      return (s, true)

/-- input/file/im_file.c:416-427: the name leads to another file. -/
def noteRotated (i : Nat) (s : State ι) : Res (State ι × Bool) :=
  if (s.file name).inode ≠ i then do
    let s := (s.cacheSet name 0).cacheSet (countKey name) 0
    let s ← inputClose conf name s
    let s := s.setFile name { s.file name with filepos := 0, inode := 0 }
    return (s.note (.rotated name), true)
  else return (s, false)

/-- input/file/im_file.c:444. -/
def FileInput.truncated (f : FileInput ι) (size : Int) : Prop := 0 < f.filepos ∧ size < f.filepos

instance (f : FileInput ι) (size : Int) : Decidable (f.truncated size) := by
  unfold FileInput.truncated
  infer_instance

/-- input/file/im_file.c:429-461: what is kept of the file information. -/
def FileInput.restat (f : FileInput ι) (mtime size : Int) : FileInput ι :=
  { f with
    new_mtime := if f.mtime ≠ mtime then mtime else f.new_mtime
    new_size := if f.size < size ∨ f.truncated size ∨ size > f.filepos then size else f.new_size
    size := if f.truncated size then 0 else f.size }

/-- input/file/im_file.c:429-461, with `needopen`. -/
def noteChanged (i : Nat) (s : State ι) : State ι × Bool :=
  let f := s.file name
  let mtime := s.disk.mtime i
  let size := s.disk.size i
  let s := s.setFile name (f.restat mtime size)
  let s :=
    if f.truncated size then ((s.cacheSet name 0).cacheSet (countKey name) 0).note (.truncated name) else s
  (s, decide (f.mtime ≠ mtime ∨ f.size < size ∨ f.truncated size ∨ size > f.filepos))

/-- input/file/im_file.c:412-462. -/
def noteFound (i : Nat) (s : State ι) : Res (State ι × Bool) :=
  if (s.file name).inode = 0 then return (s, true)
  else do
    let (s, rotated) ← noteRotated conf name i s
    let (s, changed) := noteChanged name i s
    return (s, rotated || changed)

/-- input/file/im_file.c:464-465. -/
def reopen : Res (State ι) := do
  let (s, _) ← checkClose conf s
  inputOpen conf name false true s

/-- input/file/im_file.c:412-466: there is a file of this name. -/
def checkFound (i : Nat) (s : State ι) : Res (State ι) := do
  let (s, needopen) ← noteFound conf name i s
  if needopen then reopen conf name s else return s

/-- mirrors input/file/im_file.c:366-490 (`im_file_check_file`). -/
def checkFile : Res (State ι) :=
  let f := s.file name
  if blacklisted f s.disk.now then return s
  else if f.new_size > f.filepos then do
    let (s, closed) ← checkClose conf s
    if closed then inputOpen conf name false true s else return s
  else
    match s.disk.entry name with
    | .inode i => checkFound conf name i s
    | .denied => inputBlacklist conf name s
    | .missing =>
      if f.blacklist_until ≠ 0 ∧ ¬ s.wildcard then inputBlacklist conf name s
      else do
        let s := ((s.forget name).cacheRemove name).cacheRemove (countKey name)
        let s ← inputClose conf name s
        return s.note (.deleted name)

/-- mirrors input/file/im_file.c:562-593 (`im_file_check_rename`). -/
def checkRename : Option Name :=
  match s.disk.entry name with
  | .inode i => s.files.find? fun n =>
      (s.file n).inode ≠ 0 ∧ i = (s.file n).inode ∧ s.disk.size i = (s.file n).size
  | _ => none

/-- A file that is not in the hash any more is closed and freed. -/
def dropFile : Res (State ι) := do
  let s ← inputClose conf name (s.forget name)
  return if conf.savepos then s else s.note (.forgotten name)

/-- What is saved of a file with SavePos: the position. -/
def savedPos (name : Name) : Int :=
  if conf.savepos then (((s.cache name).map Int64.toInt).getD 0) else 0

def savedNumber (name : Name) : Int64 :=
  if conf.savepos then (s.cache (countKey name)).getD 0 else 0

/-- input/file/im_file.c:645-648: the file a new one was renamed from. -/
def dupeOf : Option Name := if conf.renamecheck then checkRename name s else none

def newPos : Int :=
  match dupeOf conf name s with
  | none => savedPos conf s name
  | some dupe => (s.file dupe).filepos

/-- input/file/im_file.c:645-658, apart from the position. -/
def dropDupe : Res (State ι) :=
  match dupeOf conf name s with
  | none => return s
  | some dupe => dropFile conf dupe s

/-- input/file/im_file.c:621-664: a file that is not in the hash. It is put into it before it is
opened, and taken out again if it is freed; nothing in between looks at the hash. -/
def addNew (readfromlast : Bool) (s : State ι) : Res (State ι) := do
  let existed := decide (0 < savedPos conf s name)
  let f := .new (newPos conf name s) (savedNumber conf s name)
  let s ← dropDupe conf name s
  let s := { s.setFile name f with files := s.files ++ [name] }
  let (s, _) ← checkClose conf s
  inputOpen conf name readfromlast existed s

/-- input/file/im_file.c:669-687. -/
def dropOthers (name : Name) : List Name → State ι → Res (State ι)
  | [], s => return s
  | n :: names, s =>
    if n ≠ name then do
      let s ← dropFile conf n s
      dropOthers name names s
    else dropOthers name names s

/-- input/file/im_file.c:616-667. -/
def addUnknown (readfromlast : Bool) (s : State ι) : Res (State ι) :=
  if name ∈ s.files then return s else addNew conf name readfromlast s

/-- mirrors input/file/im_file.c:595-690 (`im_file_add_file`). A name without wildcards is the only
one. -/
def addFile (readfromlast single : Bool) (s : State ι) : Res (State ι) := do
  let s ← addUnknown conf name readfromlast { s with wildcard := !single }
  if single then dropOthers conf name s.files s else return s

/-- `(int)`, as an argument of type `int64_t`. -/
def asInt (n : Int) : Int64 := (Int32.ofInt n).toInt64

/-- input/file/im_file.c:957-976: nothing in the buffer, so it is filled. The state, and `got_data`
and `got_eof`. -/
def readMore : Res (State ι × Bool × Bool) := do
  let s ← getFilepos conf name s
  let s := s.cacheSet name (asInt (s.file name).filepos)
  let s := s.cacheSet (countKey name) (s.file name).current_line_number
  let (s, got_eof) ← fillBuffer conf name s
  match (s.file name).input with
  | none => return (s, false, got_eof)
  | some opened => do
    let (s, got_data) ← callReader conf.inputfunc.func name opened s
    return (s, got_data, got_eof)

/-- input/file/im_file.c:982-991: the end of the file, and nothing read. -/
def countEof : State ι :=
  let f := s.file name
  let f := if 0 < f.new_size then { f with size := f.new_size, filepos := f.new_size } else f
  let f := if 0 < f.new_mtime then { f with mtime := f.new_mtime } else f
  s.setFile name { f with num_eof := f.num_eof + 1 }

/-- input/file/im_file.c:992-1004. -/
def flushIdle : Res (State ι) :=
  if 2 ≤ (s.file name).num_eof then flushInput conf name s else return s

/-- input/file/im_file.c:982-1010. -/
def idleFile : Res (State ι) := do
  let s ← flushIdle conf name (countEof name s)
  let s := { s with currsrc := nextFile s.open_files name }
  if conf.closewhenidle then inputClose conf name s else return s

/-- input/file/im_file.c:948-976: the state, `got_data` and `got_eof`. -/
def readRecord : Res (State ι × Bool × Bool) :=
  match (s.file name).input with
  | none => .error (.assert "file->input != NULL")
  | some opened => do
    let (s, got_data) ← callReader conf.inputfunc.func name opened s
    if got_data then return (s, true, false) else readMore conf name s

/-- input/file/im_file.c:946-1016: one turn of the loop of `im_file_read`. -/
def readTurn : Res (State ι) := do
  let (s, got_data, got_eof) ← readRecord conf name s
  if got_eof then
    if got_data then return s else idleFile conf name s
  else return s.setFile name { s.file name with num_eof := 0 }

/-- input/file/im_file.c:1179-1182. -/
def closeAll : List Name → State ι → Res (State ι)
  | [], s => return s
  | name :: names, s => do
    let s ← getFilepos conf name s
    let s ← inputClose conf name s
    closeAll names s

/-- input/file/im_file.c:1191-1198. -/
def saveFile : State ι :=
  if conf.savepos then
    (s.cacheSet name (asInt (s.file name).filepos)).cacheSet (countKey name) (s.file name).current_line_number
  else s.note (.forgotten name)

/-- mirrors input/file/im_file.c:1167-1217 (`im_file_stop`). -/
def stop : Res (State ι) := do
  let s ← closeAll conf s.open_files s
  let s := s.files.foldl (fun s name => saveFile conf name s) s
  return { s with files := [] }

/-- An event of a run. `readFirst` is the beginning of `im_file_read` (926-936). -/
inductive Event where
  | disk (disk : Disk)
  | readFirst
  | readTurn
  | checkFile (name : Name)
  | addFile (name : Name) (readfromlast single : Bool)
  | stop

def State.step : Event → Res (State ι)
  | .disk disk => return { s with disk := disk }
  | .readFirst => return if s.currsrc = none then { s with currsrc := s.open_files.head? } else s
  | .readTurn =>
    match s.currsrc with
    | none => return s
    | some name => readTurn conf name s
  | .checkFile name => if name ∈ s.files then checkFile conf name s else return s
  | .addFile name readfromlast single => addFile conf name readfromlast single s
  | .stop => stop conf s

end Functions

/-- The line reader, which has nothing to flush (core/ctx.c:472-473), on inputs with this buffer;
`room` is input/file/im_file.c:110-120. -/
def lineInput (buf : Bytes) : InputFunc Input where
  new := Input.fresh buf
  buflen := Input.buflen
  room input :=
    let input := input.prepare
    if input.bufstart + input.buflen ≤ input.bufsize then return (input, input.roomLeft)
    else .error (.assert "input->bufstart + input->buflen <= input->bufsize")
  receive := Input.receive
  func := lineReader
  flush := none

/-- Before the module is started for the first time. -/
def State.start {ι : Type} (disk : Disk) : State ι :=
  ⟨disk, [], fun _ => .new 0 0, [], 0, none, false, fun _ => none, []⟩

/-! ## A file with two lines -/

def sampleConf : Conf Input := ⟨lineInput (List.replicate 8 0), true, true, false, false, 10⟩

def sampleDisk (i : Nat) (data : Bytes) : Disk :=
  ⟨fun n => if n = ascii "a" then .inode i else .missing, fun _ => true, fun _ => data, fun _ => 1,
    fun _ => .ready, 0⟩

def sampleRecord (number : Int64) (line : Bytes) : Note :=
  .record (ascii "a") number ((lineRecord line).appendFieldValue lineNumberKey ⟨TRUE, .integer number⟩)

/-- A line is read, the module is stopped, another line is written, and the module is started
again. -/
def restart : List Event :=
  [.addFile (ascii "a") false true, .readFirst, .readTurn, .stop,
    .disk (sampleDisk 1 (ascii "x\ny\n")), .addFile (ascii "a") false true,
    .readFirst, .readTurn]

end Nxlog.L4.ImFile
