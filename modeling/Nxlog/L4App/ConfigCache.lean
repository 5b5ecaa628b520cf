import Nxlog.Core.Run
import Nxlog.L1Encoding.DecodeSafety

/-!
# The config cache (`common/config_cache.c`)

Modules keep positions and counters in a hash table that is written to a file when the program stops
and read when it starts. The file is a version string, then one key and one value for each item that
was used, all in the format of `nx_value_to_file` and without anything between them.

`ctx->ccfile` stays open once the file was written; a failed read removes the file, and then the
descriptor belongs to a file without a name. Strings are not shared, so their addresses are all
zero. The functions `log_debug` is called with evaluate their arguments whether or not they print
them.

* `cacheWrite`, `cacheRead` and the functions that get, set and remove values.
* `Decoding`: what comes out of one value of a file that is not larger than the limit.
* `BadItems`, `BadFile`: files that stop the process.
* `cache_read_safe_iff`: there are no others.
-/
namespace Nxlog.L4.ConfigCache
open L1 Res List

/-- `NX_CONFIG_CACHE_VERSION`. -/
def versionText : CStr := lit "NX-CC-VERSION 001"

def cacheLimit : Nat := 1024 * 1024 * 100

/-- `nx_cc_item_t`. There is no value once it was freed and the new one was too long. -/
structure Item where
  used : Bool
  key : CStr
  value : Option NxValue
  deriving DecidableEq

/-- `ctx->ccfile`: NULL, open, or open on a file that was removed. -/
inductive CcFile where
  | closed | opened | unlinked
  deriving DecidableEq

/-- The cache of a context, and the file on the disk. -/
structure Cache where
  nocache : Bool
  items : List Item
  file : Option Bytes
  ccfile : CcFile
  deriving DecidableEq

variable (s : Cache)

def Cache.keys : List CStr := s.items.map Item.key

/-! ## Writing -/

/-- mirrors common/value-serialize.c:347-365 (`nx_value_to_file`): the bytes that are written. -/
def valueToFile (value : NxValue) : Res Bytes := do
  let size ← valueSerializedSize value
  let r ← valueToMembuf value size
  let buf := r.getD []
  Res.assert (size = buf.length) "size == nx_value_to_membuf(value, buf, size)"
  return buf

def stringValue (str : Bytes) : NxValue := ⟨TRUE, .string (some ⟨0, str⟩)⟩

/-- mirrors common/config_cache.c:82-113 (`_write_item`): the bytes that are written. -/
def writeItem (item : Item) : Res Bytes :=
  match item.value with
  | none => Res.fault
  | some value => do
    let key ← valueToFile (stringValue item.key.1)
    let value ← valueToFile value
    return key ++ value

def writeItems : List Item → Res Bytes
  | [] => .ok []
  | item :: items =>
    if item.used = false then writeItems items
    else do
      let bytes ← writeItem item
      let more ← writeItems items
      return bytes ++ more

/-- The order in which the hash table is walked. -/
structure Order where
  walk : List Item → List Item
  perm : ∀ items, (walk items).Perm items

def fileOf (order : Order) (items : List Item) : Res Bytes := do
  let version ← valueToFile (stringValue versionText.1)
  let bytes ← writeItems (order.walk items)
  return version ++ bytes

/-- mirrors common/config_cache.c:199-269 (`nx_config_cache_write`). -/
def cacheWrite (order : Order) (s : Cache) : Res Cache :=
  if s.nocache then .ok s
  else if s.items.length = 0 then .ok s
  else do
    let bytes ← fileOf order s.items
    return match s.ccfile with
      | .closed => { s with file := some bytes, ccfile := .opened }
      | .opened => { s with file := some bytes }
      | .unlinked => s

/-! ## Reading -/

/-- common/config_cache.c:156-167: the message for an item, which nobody has to see. -/
def logItem (value : NxValue) : Res Unit :=
  match value.data with
  | .string none => Res.fault
  | _ => .ok ()

/-- common/config_cache.c:135-170, the `try` block of `_read_item`: the item and `*bytesread`. -/
def readItem (buf : Bytes) : Res (Item × Nat) := do
  let (key, readsize) ← valueFromMembuf 0 buf buf.length
  match key.data with
  | .string none => Res.fault
  | .string (some str) => do
    let (value, size) ← valueFromMembuf 0 (buf.drop readsize) (buf.drop readsize).length
    logItem value
    return (⟨false, cut str.buf, some value⟩, readsize + size)
  | _ => Res.throw "failed to read key from config cache"

/-- common/config_cache.c:345-352: the loop over the items, with what is left of the file. An
exception comes back as a message, with the items that were read before it. -/
def readItems : Nat → Bytes → List Item → Res (List Item × Option String)
  | _, [], items => .ok (items, none)
  | 0, _ :: _, _ => Res.hang
  | fuel + 1, b :: buf, items =>
    match readItem (b :: buf) with
    | .error (.throw msg) => .ok (items, some msg)
    | .error e => .error e
    | .ok (item, bytesread) => do
      Res.assert (items.all fun i => i.key ≠ item.key) "tmpitem == NULL"
      Res.assert (bytesread ≤ (b :: buf).length) "bytesread <= bytesleft"
      readItems fuel ((b :: buf).drop bytesread) (items ++ [item])

/-- common/config_cache.c:334-343: the size of the version. -/
def readVersion (file : Bytes) : Res Nat := do
  let (version, bytesread) ← valueFromMembuf 0 file file.length
  match version.data with
  | .string none => Res.fault
  | .string (some str) =>
    if cut str.buf = versionText then return bytesread
    else Res.throw ("config cache version mismatch, expected NX-CC-VERSION 001, got " ++
      String.ofList ((cut str.buf).1.map fun c => Char.ofNat c.toNat))
  | _ => Res.throw "string expected for config cache version"

/-- common/config_cache.c:300-354: the `try` block of `nx_config_cache_read`. -/
def readFile (file : Bytes) (items : List Item) : Res (List Item × Option String) :=
  if cacheLimit < file.length then
    .ok (items, some ("cache file is too large (" ++ toString (cInt file.length) ++ " bytes)"))
  else if file = [] then .ok (items, none)
  else
    match readVersion file with
    | .error (.throw msg) => .ok (items, some msg)
    | .error e => .error e
    | .ok bytesread => readItems file.length (file.drop bytesread) items

def CcFile.unlink : CcFile → CcFile
  | .closed => .closed
  | _ => .unlinked

/-- mirrors common/config_cache.c:273-380 (`nx_config_cache_read`): the cache, and the message of
the exception if one was thrown; "failed to read config cache" is added to it. -/
def cacheRead : Res (Cache × Option String) :=
  if s.nocache then .ok (s, none)
  else
    match s.file with
    | none => .ok (s, none)
    | some file => do
      let (items, e) ← readFile file s.items
      match e with
      | none => return ({ s with items := items }, none)
      | some msg => return ({ s with items := items, file := none, ccfile := s.ccfile.unlink }, some msg)

/-! ## Values -/

variable (module key : CStr)

/-- `apr_snprintf(ckey, sizeof(ckey), "%s/%s", module, key)`. It never returns `sizeof(ckey)`: a
longer key is cut. -/
def ckey : CStr := cut ((module.1 ++ 47 :: key.1).take 4159)

def Cache.find (s : Cache) (key : CStr) : Option Item := s.items.find? fun i => decide (i.key = key)

def Cache.update (f : Item → Item) : Cache :=
  { s with items := s.items.map fun i => if i.key = key then f i else i }

def Cache.add (item : Item) : Cache := { s with items := s.items ++ [item] }

def Item.type (item : Item) : Res ValueType :=
  match item.value with
  | none => Res.fault
  | some value => .ok value.type

/-- mirrors common/config_cache.c:384-417 (`nx_config_cache_get_int`) and 421-455
(`nx_config_cache_get_string`), which differ in the type: an item that was found is in use. -/
def cacheGet (type : ValueType) (s : Cache) (key : CStr) : Res Cache :=
  match s.find key with
  | none => .ok s
  | some item => do
    let t ← item.type
    return if t = type then s.update key fun i => { i with used := true } else s

def cacheGetInt : Res Cache := cacheGet .integer s (ckey module key)

def cacheGetString : Res Cache := cacheGet .string s (ckey module key)

/-- mirrors common/config_cache.c:462-502 (`nx_config_cache_set_int`). The value of an item that is
there stays undefined if it was. -/
def cacheSetInt (value : Int64) : Res Cache :=
  match s.find (ckey module key) with
  | some item => do
    let t ← item.type
    Res.assert (t = .integer) "item->value->type == NX_VALUE_TYPE_INTEGER"
    return s.update (ckey module key) fun i =>
      { i with value := i.value.map fun v => { v with data := .integer value }, used := true }
  | none => return s.add ⟨true, ckey module key, some ⟨TRUE, .integer value⟩⟩

/-- mirrors common/config_cache.c:506-547 (`nx_config_cache_set_string`): the cache, and the message
if the value is too long. The old value has been freed by then. -/
def cacheSetString (value : CStr) : Res (Cache × Option String) :=
  match s.find (ckey module key) with
  | some item => do
    let t ← item.type
    Res.assert (t = .string) "item->value->type == NX_VALUE_TYPE_STRING"
    if value.1.length ≤ stringLimit then
      return (s.update (ckey module key) fun i =>
        { i with value := some (stringValue value.1), used := true }, none)
    else
      return (s.update (ckey module key) fun i => { i with value := none },
        some "oversized string, limit is 1048576 bytes")
  | none =>
    if value.1.length ≤ stringLimit then
      return (s.add ⟨true, ckey module key, some (stringValue value.1)⟩, none)
    else return (s, some "oversized string, limit is 1048576 bytes")

/-- mirrors common/config_cache.c:583-602 (`nx_config_cache_remove`). -/
def cacheRemove : Cache :=
  { s with items := s.items.filter fun i => i.key ≠ ckey module key }

/-- mirrors common/config_cache.c:551-576 (`nx_config_cache_free`). -/
def cacheFree : Cache := { s with items := [], ccfile := .closed }

/-! ## Decoding -/

def wireString (str : Bytes) : Bytes := 2 :: 1 :: (leBytes 4 str.length ++ str)

theorem wireString_eq (str : Bytes) : wireString str = encValue (stringValue str) := by
  rw [encValue_defined rfl]
  rfl

@[simp] theorem wireString_length (str : Bytes) : (wireString str).length = 6 + str.length := by
  simp [wireString]
  omega

inductive Decoding (mem : Bytes) : Res (NxValue × Nat) → Prop where
  | throw (msg : String) : Decoding mem (Res.throw msg)
  | undefined (d : UInt8) (rest : Bytes) (h : mem = 2 :: d :: rest) (hd : d ≠ 1) :
      Decoding mem (.ok (⟨d.toUInt32, .string none⟩, 2))
  | string (str rest : Bytes) (h : mem = wireString str ++ rest) (hs : str.length ≤ stringLimit) :
      Decoding mem (.ok (stringValue str, (wireString str).length))
  | other (v rest : Bytes) (w : NxValue) (h : mem = v ++ rest) (hv : WireValue v rest)
      (hw : w.type ≠ .string) : Decoding mem (.ok (w, v.length))

variable {mem : Bytes}

theorem payloadFromMembuf_type {addr : Nat} {n : Nat} {ty : ValueType} {d : Data} {offs : Nat}
    (h : payloadFromMembuf addr mem n ty = .ok (d, offs)) : d.type = ty := by
  cases ty with
  | regexp | unknown | other => cases h
  | _ =>
    obtain ⟨_, -, h⟩ := bind_eq_ok.mp h
    obtain ⟨_, -, h⟩ := bind_eq_ok.mp h
    cases h
    rfl

theorem string_serializable (s : NxString) (h : s.buf.length ≤ stringLimit) :
    NxValue.Serializable ⟨TRUE, .string (some s)⟩ := by
  refine .inr ⟨rfl, s, rfl, ?_⟩
  unfold stringLimit at h
  omega

theorem decode_string {str : Bytes} (h : str.length ≤ stringLimit) (rest : Bytes) :
    valueFromMembuf 0 (wireString str ++ rest) (wireString str ++ rest).length =
      .ok (stringValue str, (wireString str).length) := by
  rw [wireString_eq]
  exact valueFromMembuf_enc 0 (stringValue str) (string_serializable _ h) (fun _ => h) rest _ (by simp)

theorem decode_undefined (tag : UInt8) {d : UInt8} (hd : d ≠ 1) (rest : Bytes) :
    valueFromMembuf 0 (tag :: d :: rest) (tag :: d :: rest).length =
    .ok (⟨d.toUInt32, .zero (.ofTag tag)⟩, 2) := by
  rw [valueFromMembuf_head _ _ _ _ _ (by simp), if_neg hd]

/-- A defined value has its type in front. -/
theorem decode_type {tag : UInt8} {rest : Bytes} {n : Nat} {w : NxValue} {size : Nat} (hn : 2 ≤ n)
    (h : valueFromMembuf 0 (tag :: 1 :: rest) n = .ok (w, size)) : w.type = .ofTag tag := by
  rw [valueFromMembuf_head _ _ _ _ _ hn, if_pos rfl] at h
  obtain ⟨⟨data, offs⟩, hd, h⟩ := bind_eq_ok.mp h
  cases h
  exact payloadFromMembuf_type hd

/-- A file within the limit holds no string of 2 GiB. -/
theorem decoding (hne : mem ≠ []) (hlen : mem.length ≤ cacheLimit) :
    Decoding mem (valueFromMembuf 0 mem mem.length) := by
  unfold cacheLimit at hlen
  have hout := valueOutcome 0 mem hne
  generalize hr : valueFromMembuf 0 mem mem.length = r at hout
  cases hout with
  | throw msg => exact .throw msg
  | fault h =>
    obtain ⟨len, src, rfl, h31, -, hsrc, -⟩ := h
    simp only [length_cons, length_append, leBytes_length] at hlen
    omega
  | ok v rest w h hv =>
    subst h
    cases hv with
    | undefined tag d _ hd =>
      have hdec := decode_undefined tag hd rest
      simp only [cons_append, nil_append] at hr
      rw [hdec] at hr
      cases hr
      by_cases htag : ValueType.ofTag tag = .string
      · have : tag = 2 := by rw [← ValueType.tag_ofTag tag, htag]; rfl
        subst this
        exact .undefined d rest rfl hd
      · exact .other [tag, d] rest _ rfl (.undefined tag d rest hd) (by simpa [NxValue.type] using htag)
    | fixed ty bs _ hk =>
      refine .other _ rest w rfl (.fixed ty bs rest hk) ?_
      have htype := decode_type (by simp) hr
      rw [htype, ValueType.ofTag_tag]
      rintro rfl
      cases hk
    | binary bs _ hl =>
      refine .other _ rest w rfl (.binary bs rest hl) ?_
      have htype := decode_type (by simp) hr
      rw [htype]
      decide
    | string bs _ hl =>
      have hdec := decode_string hl rest
      rw [wireString] at hdec
      rw [hdec] at hr
      cases hr
      exact .string bs rest rfl hl
    | longString bs _ n h31 =>
      simp only [length_cons, length_append, leBytes_length] at hlen
      omega

/-! ## Files that stop the process -/

/-- What is left of the file behind the version and items with these keys. -/
inductive BadItems : List CStr → Bytes → Prop where
  | key (keys : List CStr) (d : UInt8) (rest : Bytes) (hd : d ≠ 1) : BadItems keys (2 :: d :: rest)
  | keyOnly (keys : List CStr) (k : Bytes) (hk : k.length ≤ stringLimit) : BadItems keys (wireString k)
  | value (keys : List CStr) (k : Bytes) (d : UInt8) (rest : Bytes) (hk : k.length ≤ stringLimit)
      (hd : d ≠ 1) : BadItems keys (wireString k ++ 2 :: d :: rest)
  | twice (keys : List CStr) (k v rest : Bytes) (hk : k.length ≤ stringLimit)
      (hv : WireValue v rest) (hkeys : cut k ∈ keys) : BadItems keys (wireString k ++ (v ++ rest))
  | next (keys : List CStr) (k v rest : Bytes) (hk : k.length ≤ stringLimit) (hv : WireValue v rest)
      (hrest : BadItems (keys ++ [cut k]) rest) : BadItems keys (wireString k ++ (v ++ rest))

/-- Files within the limit that stop the process when they are read into a cache with these keys. -/
def BadFile (keys : List CStr) (file : Bytes) : Prop :=
  file.length ≤ cacheLimit ∧
    ((∃ d rest, d ≠ 1 ∧ file = 2 :: d :: rest) ∨
      ∃ v rest, v.length ≤ stringLimit ∧ cut v = versionText ∧ file = wireString v ++ rest ∧
      BadItems keys rest)

inductive ItemRead (mem : Bytes) : Res (Item × Nat) → Prop where
  | throw (msg : String) : ItemRead mem (Res.throw msg)
  | bad (e : Fail) (he : ∀ msg, e ≠ .throw msg) (h : ∀ keys, BadItems keys mem) : ItemRead mem (.error e)
  | ok (k v rest : Bytes) (w : NxValue) (h : mem = wireString k ++ (v ++ rest)) (hk : k.length ≤ stringLimit)
      (hv : WireValue v rest) : ItemRead mem (.ok (⟨false, cut k, some w⟩, (wireString k).length + v.length))

theorem not_string {w : NxValue} (h : w.type ≠ .string) (s : Option NxString) : w.data ≠ .string s :=
  fun hdata => h (by rw [NxValue.type, hdata]; rfl)

theorem readItem_key {k : Bytes} (hk : k.length ≤ stringLimit) (rest : Bytes) :
    readItem (wireString k ++ rest) = do
      let (value, size) ← valueFromMembuf 0 rest rest.length
      logItem value return (⟨false, cut k, some value⟩, (wireString k).length + size) := by
  rw [readItem, decode_string hk, ok_bind]
  simp only [stringValue, drop_left]

theorem itemRead (hne : mem ≠ []) (hlen : mem.length ≤ cacheLimit) : ItemRead mem (readItem mem) := by
  have hkey := decoding hne hlen
  generalize hr : valueFromMembuf 0 mem mem.length = r at hkey
  cases hkey with
  | throw msg =>
    rw [readItem, hr]
    exact .throw msg
  | undefined d rest h hd =>
    rw [readItem, hr]
    exact .bad .fault (by simp) fun keys => h ▸ .key keys d rest hd
  | other v rest w h hv hw =>
    have : readItem mem = Res.throw "failed to read key from config cache" := by
      simp [readItem, hr, not_string hw]
    rw [this]
    exact .throw _
  | string k rest h hk =>
    subst h
    rw [readItem_key hk]
    by_cases hnil : rest = []
    · subst hnil
      refine .bad (.assert "bufsize > 0") (by simp) fun keys => ?_
      simpa using BadItems.keyOnly keys k hk
    · have hvalue := decoding hnil (by simp at hlen; omega)
      generalize hr2 : valueFromMembuf 0 rest rest.length = r2 at hvalue
      cases hvalue with
      | throw msg => exact .throw msg
      | undefined d rest' h hd => exact .bad .fault (by simp) fun keys => h ▸ .value keys k d rest' hk hd
      | string str rest' h hs =>
        subst h
        exact .ok k (wireString str) rest' _ rfl hk (.string str rest' hs)
      | other v rest' w h hv hw =>
        have hlog : logItem w = .ok () := by simp [logItem, not_string hw]
        rw [ok_bind]
        dsimp only
        rw [hlog, ok_bind]
        exact .ok k v rest' w (by rw [h]) hk hv

variable {buf : Bytes}

theorem readItems_step (hne : buf ≠ []) (fuel : Nat) (items : List Item) :
    readItems (fuel + 1) buf items =
      match readItem buf with
      | .error (.throw msg) => .ok (items, some msg)
      | .error e => .error e
      | .ok (item, bytesread) => (do
        Res.assert (items.all fun i => i.key ≠ item.key) "tmpitem == NULL"
        Res.assert (bytesread ≤ buf.length) "bytesread <= bytesleft"
        readItems fuel (buf.drop bytesread) (items ++ [item])) := by
  cases buf with
  | nil => exact absurd rfl hne
  | cons b buf => rfl

variable {items : List Item}

/-- A key and a value, and what is behind them. -/
theorem readItems_item {k v rest : Bytes} {w : NxValue} {fuel : Nat}
    (h : readItem (wireString k ++ (v ++ rest)) = .ok
      (⟨false, cut k, some w⟩, (wireString k).length + v.length)) :
    readItems (fuel + 1) (wireString k ++ (v ++ rest)) items =
      if cut k ∈ items.map Item.key then .error (.assert "tmpitem == NULL")
      else readItems fuel rest (items ++ [⟨false, cut k, some w⟩]) := by
  have hne : wireString k ++ (v ++ rest) ≠ [] := by simp [wireString]
  have hdrop : (wireString k ++ (v ++ rest)).drop ((wireString k).length + v.length) = rest := by
    rw [← append_assoc, drop_left' (by simp)]
  have hle : decide ((wireString k).length + v.length ≤ (wireString k ++ (v ++ rest)).length) = true := by
    simp
  rw [readItems_step hne, h]
  dsimp only
  rw [hdrop, hle]
  by_cases hmem : cut k ∈ items.map Item.key
  · have hall : (items.all fun i => decide (i.key ≠ cut k)) = false := by
      obtain ⟨i, hi, hik⟩ := mem_map.mp hmem
      rw [all_eq_false]
      exact ⟨i, hi, by simp [hik]⟩
    rw [if_pos hmem, hall, assert_false]
    rfl
  · have hall : (items.all fun i => decide (i.key ≠ cut k)) = true := by
      rw [all_eq_true]
      intro i hi
      simp only [ne_eq, decide_not, Bool.not_eq_true', decide_eq_false_iff_not]
      exact fun hik => hmem (mem_map.mpr ⟨i, hi, hik⟩)
    rw [if_neg hmem, hall, assert_true, ok_bind, assert_true, ok_bind]

theorem readItems_good {fuel : Nat} (hfuel : buf.length ≤ fuel)
    (hlen : buf.length ≤ cacheLimit) (h : ¬ BadItems (items.map Item.key) buf) :
    ∃ r, readItems fuel buf items = .ok r := by
  induction fuel generalizing buf items with
  | zero =>
    obtain rfl : buf = [] := length_eq_zero_iff.mp (by omega)
    exact ⟨_, rfl⟩
  | succ fuel ih =>
    by_cases hne : buf = []
    · subst hne
      exact ⟨_, rfl⟩
    have hread := itemRead hne hlen
    generalize hr : readItem buf = r at hread
    cases hread with
    | throw msg =>
      rw [readItems_step hne, hr]
      exact ⟨_, rfl⟩
    | bad e he hbad => exact absurd (hbad _) h
    | ok k v rest w hbuf hk hv =>
      subst hbuf
      have hcut : cut k ∉ items.map Item.key := fun hmem => h (.twice _ k v rest hk hv hmem)
      simp only [length_append, wireString_length] at hfuel hlen
      rw [readItems_item hr, if_neg hcut]
      refine ih (by omega) (by omega) fun hrest => h (.next _ k v rest hk hv ?_)
      simpa using hrest

theorem readItems_stop {e : Fail} (hne : buf ≠ []) (he : ∀ msg, e ≠ .throw msg)
    (hread : readItem buf = .error e)
    (fuel : Nat) (items : List Item) : ∃ e, readItems fuel buf items = .error e := by
  cases fuel with
  | zero => cases buf with
    | nil => exact absurd rfl hne
    | cons b buf => exact ⟨_, rfl⟩
  | succ fuel =>
    rw [readItems_step hne, hread]
    cases e with
    | throw msg => exact absurd rfl (he msg)
    | _ => exact ⟨_, rfl⟩

/-- A key and a value that can be read: the loop stops, or goes on behind them. -/
theorem readItems_wire {k v rest : Bytes} (hk : k.length ≤ stringLimit) (hv : WireValue v rest)
    (fuel : Nat) (items : List Item) :
    (∃ e, readItems fuel (wireString k ++ (v ++ rest)) items = .error e) ∨
      cut k ∉ items.map Item.key ∧ ∃ n w, readItems fuel (wireString k ++ (v ++ rest)) items =
      readItems n rest (items ++ [⟨false, cut k, some w⟩]) := by
  have hne : wireString k ++ (v ++ rest) ≠ [] := by simp [wireString]
  obtain ⟨w, hw⟩ := valueFromMembuf_wire hv 0
  have hread := readItem_key hk (v ++ rest)
  rw [hw, ok_bind] at hread
  dsimp only at hread
  unfold logItem at hread
  split at hread
  · exact .inl (readItems_stop hne (by simp) hread fuel items)
  rw [ok_bind] at hread
  cases fuel with
  | zero => exact .inl ⟨_, rfl⟩
  | succ fuel =>
    rw [readItems_item hread]
    split
    · exact .inl ⟨_, rfl⟩
    · next hnot => exact .inr ⟨hnot, fuel, w, rfl⟩

theorem readItems_bad {keys : List CStr} (h : BadItems keys buf) :
    ∀ {fuel : Nat} {items : List Item}, items.map Item.key = keys → ∃ e,
    readItems fuel buf items = .error e := by
  induction h with
  | key keys d rest hd =>
    intro fuel items _
    refine readItems_stop (e := .fault) (by simp) (by simp) ?_ fuel items
    rw [readItem, decode_undefined 2 hd]
    rfl
  | keyOnly keys k hk =>
    intro fuel items _
    refine readItems_stop (e := .assert "bufsize > 0") (by simp [wireString]) (by simp) ?_ fuel items
    have := readItem_key hk []
    rw [append_nil] at this
    rw [this]
    rfl
  | value keys k d rest hk hd =>
    intro fuel items _
    refine readItems_stop (e := .fault) (by simp [wireString]) (by simp) ?_ fuel items
    rw [readItem_key hk, decode_undefined 2 hd]
    rfl
  | twice keys k v rest hk hv hkeys =>
    intro fuel items hitems
    exact (readItems_wire hk hv fuel items).resolve_right fun hnext => hnext.1 (hitems ▸ hkeys)
  | next keys k v rest hk hv hrest ih =>
    intro fuel items hitems
    rcases readItems_wire hk hv fuel items with hstop | ⟨-, n, w, hnext⟩
    · exact hstop
    · rw [hnext]
      exact ih (by simp [hitems])

theorem readFile_version {v rest : Bytes} (hv : v.length ≤ stringLimit) (hcut : cut v = versionText)
    (hlen : (wireString v ++ rest).length ≤ cacheLimit) (items : List Item) :
    readFile (wireString v ++ rest) items = readItems (wireString v ++ rest).length rest items := by
  have hversion : readVersion (wireString v ++ rest) = .ok (wireString v).length := by
    rw [readVersion, decode_string hv, ok_bind]
    simp only [stringValue, hcut, if_true]
    rfl
  have hnil : wireString v ++ rest ≠ [] := by simp [wireString]
  rw [readFile, if_neg (by omega), if_neg hnil, hversion]
  simp only [drop_left]

theorem readFile_iff {file : Bytes} : (∃ r, readFile file items = .ok r) ↔
    ¬ BadFile (items.map Item.key) file := by
  constructor
  · rintro ⟨r, hr⟩ ⟨hlen, ⟨d, rest, hd, rfl⟩ | ⟨v, rest, hv, hcut, rfl, hbad⟩⟩
    · have hversion : readVersion (2 :: d :: rest) = Res.fault := by
        rw [readVersion, decode_undefined 2 hd]
        rfl
      rw [readFile, if_neg (by omega), if_neg (by simp), hversion] at hr
      cases hr
    · rw [readFile_version hv hcut hlen] at hr
      obtain ⟨e, he⟩ := readItems_bad hbad rfl
      rw [he] at hr
      cases hr
  · intro hgood
    by_cases hlen : cacheLimit < file.length
    · rw [readFile, if_pos hlen]
      exact ⟨_, rfl⟩
    by_cases hnil : file = []
    · rw [readFile, if_neg hlen, if_pos hnil]
      exact ⟨_, rfl⟩
    have hle : file.length ≤ cacheLimit := by omega
    have hdec := decoding hnil hle
    generalize hr : valueFromMembuf 0 file file.length = r at hdec
    -- whatever `readVersion` throws comes back as a message
    have hthrow : ∀ msg, readVersion file = Res.throw msg → ∃ r, readFile file items = .ok r := by
      intro msg hversion
      rw [readFile, if_neg hlen, if_neg hnil, hversion]
      exact ⟨_, rfl⟩
    cases hdec with
    | throw msg => exact hthrow msg (by rw [readVersion, hr]; rfl)
    | undefined d rest h hd => exact absurd ⟨hle, .inl ⟨d, rest, hd, h⟩⟩ hgood
    | other v rest w h hv hw =>
      exact hthrow "string expected for config cache version" (by simp [readVersion, hr, not_string hw])
    | string v rest h hs =>
      by_cases hcut : cut v = versionText
      · subst h
        rw [readFile_version hs hcut hle]
        apply readItems_good (by simp)
        · simp only [length_append] at hle
          omega
        · exact fun hbad => hgood ⟨hle, .inr ⟨v, rest, hs, hcut, rfl, hbad⟩⟩
      · apply hthrow
        rw [readVersion, hr, ok_bind]
        simp only [stringValue, hcut, if_false]
        rfl

/-- Reading the cache returns or throws exactly if it has no file to read, or none that is bad. -/
theorem cache_read_safe_iff (s : Cache) :
    (∃ r, cacheRead s = .ok r) ↔ s.nocache = true ∨ ∀ file, s.file = some file → ¬ BadFile s.keys file := by
  unfold cacheRead
  by_cases hno : s.nocache = true
  · simp [hno]
  cases hfile : s.file with
  | none => simp [hno]
  | some file =>
    simp only [hno, if_false, Bool.false_eq_true, false_or, Option.some.injEq, forall_eq']
    rw [Cache.keys, ← readFile_iff]
    constructor
    · rintro ⟨r, hr⟩
      obtain ⟨a, ha, -⟩ := bind_eq_ok.mp hr
      exact ⟨a, ha⟩
    · rintro ⟨⟨items, e⟩, hr⟩
      rw [hr]
      cases e with
      | none | some msg => exact ⟨_, rfl⟩

def cutFile : Bytes := wireString versionText.1 ++ wireString (ascii "a/b")

/-- A file that ends behind a key, or whose key has no string. -/
theorem cache_read_stops :
    cacheRead ⟨false, [], some cutFile, .closed⟩ = .error (.assert "bufsize > 0") ∧
      cacheRead ⟨false, [], some (wireString versionText.1 ++ [2, 0]), .closed⟩ = Res.fault := by
  exact ⟨rfl, rfl⟩

end Nxlog.L4.ConfigCache
