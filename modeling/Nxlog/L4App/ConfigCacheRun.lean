import Nxlog.L4App.ConfigCache

/-!
# The config cache over restarts (`common/config_cache.c`)

What is written is read back: the used items, with their keys and values (`cache_persistence`).

A key that was removed should be gone for good once the cache was written. But
`nx_config_cache_write` leaves the file alone if the cache is empty, so that the last key of a cache
comes back when the file is read again. `History` keeps, beside the cache, the keys that were
removed since they were last set, apart into those after which the cache was not written yet and
those after which it was.

* `pieces`: the keys and values of a file.
* `Edits`: what the operations that do not touch the file do to the cache.
* `History.Kept`: what every step keeps.
* `removed_keys_stay_removed`: as long as no write finds the cache empty and the file there.
-/
namespace Nxlog.L4.ConfigCache
open L1 Res List

variable {e : Option String} {file str : Bytes} {s : Cache}

/-! ## Values in a file -/

theorem valueToFile_enc {v : NxValue} (h : v.Serializable) : valueToFile v = .ok (encValue v) := by
  rw [valueToFile, serializedSize_eq h, ok_bind, toMembuf_eq h (Nat.le_refl _), ok_bind]
  simp

theorem stringToFile (h : str.length ≤ stringLimit) : valueToFile (stringValue str) =
    .ok (wireString str) := by
  rw [stringValue, valueToFile_enc (string_serializable _ h), ← stringValue, wireString_eq]

theorem versionText_fits : versionText.1.length ≤ stringLimit := by
  show 17 ≤ stringLimit
  decide

/-! ## Round trip -/

/-- An item that holds an integer or a string. -/
structure Storable (item : Item) (v : NxValue) : Prop where
  value : item.value = some v
  key : item.key.1.length ≤ stringLimit
  type : (∃ i, v = ⟨TRUE, .integer i⟩) ∨
    ∃ addr str, v = ⟨TRUE, .string (some ⟨addr, str⟩)⟩ ∧ 0 ∉ str ∧ str.length ≤ stringLimit

/-- What an item is for others: its key, and the content of its value. -/
def Item.content (item : Item) : CStr × Option NxValue := (item.key, item.value.map NxValue.content)

def piece (item : Item) : Bytes := wireString item.key.1 ++ (item.value.map encValue).getD []

def Item.stored (item : Item) : Item := ⟨false, item.key, item.value.map (NxValue.decoded 0)⟩

section Roundtrip

variable {item : Item} {v : NxValue}

variable (h : Storable item v)
include h

theorem Storable.serializable : v.Serializable := by
  rcases h.type with ⟨i, rfl⟩ | ⟨addr, str, rfl, -, hs⟩
  · exact .inr ⟨rfl, trivial⟩
  · exact string_serializable _ hs

theorem Storable.fits : v.data.StringFits ∧ v.data.BinaryEmpty := by
  rcases h.type with ⟨i, rfl⟩ | ⟨addr, str, rfl, -, hs⟩
  · exact ⟨trivial, trivial⟩
  · exact ⟨hs, trivial⟩

theorem Storable.stored_content : item.stored.content = item.content := by
  have hv : (v.decoded 0).content = v.content := NxValue.content_decoded.mpr fun _ => h.fits.2
  simp [Item.content, Item.stored, h.value, hv]

theorem Storable.logItem_decoded : logItem (v.decoded 0) = .ok () := by
  rcases h.type with ⟨i, rfl⟩ | ⟨addr, str, rfl, -, hs⟩
  · rfl
  · rfl

theorem Storable.writeItem : writeItem item = .ok (piece item) := by
  simp only [ConfigCache.writeItem, h.value, stringToFile h.key, ok_bind,
    valueToFile_enc h.serializable, piece]
  rfl

theorem Storable.readItem (rest : Bytes) :
    readItem (wireString item.key.1 ++ (encValue v ++ rest)) =
      .ok (item.stored, (wireString item.key.1).length + (encValue v).length) := by
  rw [readItem_key h.key, valueFromMembuf_enc 0 v h.serializable (fun _ => h.fits.1) rest _ (by simp), ok_bind]
  dsimp only
  rw [h.logItem_decoded, ok_bind, cut_cstr, Item.stored, h.value]
  rfl

omit h

theorem writeItems_stored (h : ∀ i ∈ items, i.used = true → ∃ v, Storable i v) :
    writeItems items = .ok ((items.filter Item.used).flatMap piece) := by
  induction items with
  | nil => rfl
  | cons item items ih =>
    have hrest := ih (forall_mem_cons.mp h).2
    cases hused : item.used with
    | false => simp [writeItems, hused, hrest]
    | true =>
      obtain ⟨v, hv⟩ := h item mem_cons_self hused
      simp [writeItems, hused, hrest, hv.writeItem]

variable {stored : List Item}

theorem readItems_stored (h : ∀ i ∈ stored, ∃ v, Storable i v) :
    ∀ {fuel : Nat} {items : List Item}, (stored.flatMap piece).length ≤ fuel →
      (items.map Item.key ++ stored.map Item.key).Nodup →
      readItems fuel (stored.flatMap piece) items = .ok (items ++ stored.map Item.stored, none) := by
  induction stored with
  | nil =>
    intro fuel items _ _
    cases fuel <;> simp [readItems]
  | cons item stored ih =>
    intro fuel items hfuel hnodup
    obtain ⟨v, hv⟩ := h item mem_cons_self
    have hpiece : (item :: stored).flatMap piece = wireString item.key.1 ++
      (encValue v ++ stored.flatMap piece) := by
      simp [piece, hv.value]
    have hread := hv.readItem (stored.flatMap piece)
    rw [hpiece] at hfuel ⊢
    simp only [length_append, wireString_length] at hfuel
    obtain ⟨fuel, rfl⟩ : ∃ n, fuel = n + 1 := ⟨fuel - 1, by omega⟩
    have hkey : item.stored = ⟨false, cut item.key.1, some (v.decoded 0)⟩ := by
      rw [cut_cstr, Item.stored, hv.value]
      rfl
    rw [hkey] at hread
    have hnew : cut item.key.1 ∉ items.map Item.key := by
      rw [cut_cstr]
      intro hmem
      exact (nodup_append.mp hnodup).2.2 _ hmem _ (by simp) rfl
    rw [readItems_item hread, if_neg hnew, ih (forall_mem_cons.mp h).2 (by omega), ← hkey]
    · simp
    · rw [cut_cstr]
      simpa using hnodup

theorem cacheRead_stored (h : ∀ i ∈ stored, ∃ v, Storable i v) (hkeys : (stored.map Item.key).Nodup)
    (hfile : file = wireString versionText.1 ++ stored.flatMap piece)
    (hlimit : file.length ≤ cacheLimit) :
    cacheRead ⟨false, [], some file, .closed⟩ =
    .ok (⟨false, stored.map Item.stored, some file, .closed⟩, none) := by
  have hitems : readItems file.length (stored.flatMap piece) [] =
    .ok ([] ++ stored.map Item.stored, none) := by
    apply readItems_stored h
    · simp [hfile]
    · simpa using hkeys
  have hread : readFile file [] = .ok (stored.map Item.stored, none) := by
    rw [hfile] at hlimit hitems ⊢
    rw [readFile_version versionText_fits (cut_cstr _) hlimit]
    exact hitems
  simp [cacheRead, hread]

end Roundtrip

/-- Integers and strings that were used come back from the file, with their keys and values, and
nothing else does. -/
theorem cache_persistence {s : Cache} (order : Order) (hnocache : s.nocache = false)
    (hccfile : s.ccfile ≠ .unlinked)
    (hkeys : s.keys.Nodup) (hused : ∃ i ∈ s.items, i.used = true)
    (hitems : ∀ i ∈ s.items, i.used = true → ∃ v, Storable i v) :
    ∃ s' file, cacheWrite order s = .ok s' ∧ s'.file = some file ∧ s'.items = s.items ∧
      (file.length ≤ cacheLimit → ∃ r, cacheRead ⟨false, [], s'.file, .closed⟩ = .ok (r, none) ∧
        (r.items.map Item.content).Perm ((s.items.filter Item.used).map Item.content)) := by
  have hwalk := order.perm s.items
  have hlen : s.items.length ≠ 0 := by
    obtain ⟨i, hi, -⟩ := hused
    exact Nat.ne_of_gt (length_pos_of_mem hi)
  have hwrite := writeItems_stored fun i hi => hitems i (hwalk.mem_iff.mp hi)
  have hfile : fileOf order s.items =
      .ok (wireString versionText.1 ++ ((order.walk s.items).filter Item.used).flatMap piece) := by
    rw [fileOf, stringToFile versionText_fits, ok_bind, hwrite]
    rfl
  have hperm : ((order.walk s.items).filter Item.used).Perm (s.items.filter Item.used) := hwalk.filter _
  have hstored : ∀ i ∈ (order.walk s.items).filter Item.used, ∃ v, Storable i v := by
    intro i hi
    obtain ⟨hi, hu⟩ := mem_filter.mp (hperm.mem_iff.mp hi)
    exact hitems i hi hu
  have hnodup : (((order.walk s.items).filter Item.used).map Item.key).Nodup := by
    rw [(hperm.map Item.key).nodup_iff]
    exact hkeys.sublist (filter_sublist.map _)
  have hread : ∀ file, file = wireString versionText.1 ++
    ((order.walk s.items).filter Item.used).flatMap piece →
      file.length ≤ cacheLimit → ∃ r, cacheRead ⟨false, [], some file, .closed⟩ = .ok (r, none) ∧
        (r.items.map Item.content).Perm ((s.items.filter Item.used).map Item.content) := by
    intro file hfile hlimit
    refine ⟨_, cacheRead_stored hstored hnodup hfile hlimit, ?_⟩
    refine List.Perm.trans ?_ (hperm.map Item.content)
    rw [map_map]
    refine List.Perm.of_eq (map_congr_left fun i hi => ?_)
    obtain ⟨v, hv⟩ := hstored i hi
    exact hv.stored_content
  unfold cacheWrite
  rw [hnocache, if_neg (by simp), if_neg hlen, hfile, ok_bind]
  cases hc : s.ccfile with
  | unlinked => exact absurd hc hccfile
  | closed | opened => exact ⟨_, _, rfl, rfl, rfl, hread _ rfl⟩

def sampleItems : List Item :=
  [⟨true, lit "t/i", some ⟨TRUE, .integer 42⟩⟩, ⟨true, lit "t/s", some (stringValue (ascii "ab"))⟩,
    ⟨false, lit "t/o", some ⟨TRUE, .integer 7⟩⟩]

def inserted : Order := ⟨id, fun _ => .refl _⟩

theorem cache_persistence_sample :
    ∃ s' file, cacheWrite inserted ⟨false, sampleItems, some [1], .closed⟩ = .ok s' ∧
      s'.file = some file ∧ s'.items = sampleItems ∧ (file.length ≤ cacheLimit → ∃ r,
        cacheRead ⟨false, [], s'.file, .closed⟩ = .ok (r, none) ∧
        (r.items.map Item.content).Perm ((sampleItems.filter Item.used).map Item.content)) := by
  refine cache_persistence (s := ⟨false, sampleItems, some [1], .closed⟩) inserted rfl (by decide)
    (by decide) ⟨_, mem_cons_self, rfl⟩ ?_
  intro i hi hu
  simp only [sampleItems, mem_cons, not_mem_nil, or_false] at hi
  rcases hi with rfl | rfl | rfl
  · exact ⟨_, rfl, by decide, .inl ⟨42, rfl⟩⟩
  · exact ⟨_, rfl, by decide, .inr ⟨0, [97, 98], rfl, by decide, by decide⟩⟩
  · cases hu

/-! ## What is in the cache -/

/-- A value of a type that can be written, or an undefined one. -/
structure Plain (v : NxValue) : Prop where
  byte : v.defined.toNat < 256
  fits : v.data.StringFits
  regexp : v.defined = TRUE → v.type ≠ .regexp

section Values

variable {v : NxValue} {b : Bytes}

theorem valueToFile_undefined (h : v.defined ≠ TRUE) :
    valueToFile v = .ok [v.type.tag, v.defined.toUInt8] := by
  have hsize : valueSerializedSize v = .ok 2 := by rw [valueSerializedSize, if_neg h]
  have hbuf : valueToMembuf v 2 = .ok (some [v.type.tag, v.defined.toUInt8]) := by
    rw [valueToMembuf, if_neg (by omega), put_ok (by simp), ok_bind, put_ok (by simp), ok_bind, if_neg h]
    rfl
  rw [valueToFile, hsize, ok_bind, hbuf, ok_bind]
  rfl

theorem valueToFile_binary {src : Bytes} {len : UInt32} {value : Option Bytes}
    (hv : v = ⟨TRUE, .binary value len⟩)
    (hsrc : src = value.getD []) (hb : valueToFile v = .ok b) :
    ∃ bs, bs.length = len.toNat ∧ b = 8 :: 1 :: (leBytes 4 bs.length ++ bs) := by
  have hsize : valueSerializedSize v = .ok (2 + 4 + len.toNat) := by rw [hv]; rfl
  have hbuf : ∀ n, 2 + 4 + len.toNat ≤ n → valueToMembuf v n = putSized n [8, 1] src len.toNat := by
    intro n hn
    rw [valueToMembuf, if_neg (by omega), put_ok (by simp; omega), ok_bind, put_ok (by simp; omega),
      ok_bind, hv,
      hsrc]
    cases value <;> rfl
  rw [valueToFile, hsize, ok_bind, hbuf _ (Nat.le_refl _), putSized, if_neg (by omega),
    put_ok (by simp), ok_bind] at hb
  obtain ⟨r, hr, hb⟩ := bind_eq_ok.mp hb
  obtain ⟨bs, hbs, hr⟩ := bind_eq_ok.mp hr
  have hlen : bs.length = len.toNat := by
    obtain ⟨hle, rfl⟩ := rdBytes_length hbs
    simp only [drop_zero, length_take]
    omega
  rw [put_ok (by simp [hlen]), ok_bind] at hr
  cases hr
  obtain ⟨-, -, hb⟩ := bind_eq_ok.mp hb
  cases hb
  exact ⟨bs, hlen, by simp [hlen]⟩

/-- What is written for a value of the cache can be read again, whatever follows. -/
theorem Plain.wire (h : Plain v) (hb : valueToFile v = .ok b) (rest : Bytes) : WireValue b rest := by
  by_cases hd : v.defined = TRUE
  · obtain ⟨defined, data⟩ := v
    obtain rfl : defined = TRUE := hd
    have henc : ∀ {k}, data.Wf → fixedSize data.type = some k → (encData data).length = k →
      WireValue b rest := by
      intro k hwf hfixed hlen
      rw [valueToFile_enc (.inr ⟨rfl, hwf⟩), encValue_defined rfl] at hb
      cases hb
      exact .fixed _ _ rest (by rw [hlen]; exact hfixed)
    cases data with
    | integer i | datetime i => exact henc trivial rfl (le64_length i)
    | ip4addr a | ip6addr a => exact henc trivial rfl a.2
    | string s =>
      cases s with
      | none => cases hb
      | some s =>
        have hs : s.buf.length ≤ stringLimit := h.fits
        rw [valueToFile_enc (string_serializable s hs), encValue_defined rfl] at hb
        cases hb
        exact .string s.buf rest hs
    | boolean x =>
      have : valueToFile ⟨TRUE, .boolean x⟩ = .ok [ValueType.boolean.tag, 1, x.toUInt8] := rfl
      rw [this] at hb
      cases hb
      exact .fixed .boolean [x.toUInt8] rest rfl
    | binary value len =>
      obtain ⟨bs, hlen, rfl⟩ := valueToFile_binary rfl rfl hb
      refine .binary bs rest ?_
      rw [hlen]
      exact len.toNat_lt
    | regexp str low => exact absurd rfl (h.regexp rfl)
    | unknown | other t => cases hb
  · rw [valueToFile_undefined hd] at hb
    cases hb
    refine .undefined _ _ rest fun hone => hd ?_
    have hbyte := h.byte
    have hmod : v.defined.toNat % 256 = 1 := by simpa using congrArg UInt8.toNat hone
    apply UInt32.toNat_inj.mp
    show v.defined.toNat = 1
    omega

/-- Whatever is read is such a value. -/
theorem plain_of_decoded {mem : Bytes} {n size : Nat}
    (h : valueFromMembuf 0 mem n = .ok (v, size)) : Plain v := by
  have hfits := valueFromMembuf_stringFits h
  obtain ⟨-, -, h⟩ := bind_eq_ok.mp h
  split at h
  · cases h
  obtain ⟨type, -, h⟩ := bind_eq_ok.mp h
  obtain ⟨defined, -, h⟩ := bind_eq_ok.mp h
  have hbyte : defined.toUInt32.toNat < 256 := by
    rw [UInt8.toNat_toUInt32]
    exact defined.toNat_lt
  split at h
  · obtain ⟨⟨data, offs⟩, hdata, h⟩ := bind_eq_ok.mp h
    cases h
    refine ⟨hbyte, hfits, fun _ hre => ?_⟩
    have htype : data.type = .regexp := hre
    rw [← payloadFromMembuf_type hdata, htype] at hdata
    cases hdata
  · next hone =>
    cases h
    refine ⟨hbyte, hfits, fun hd => absurd ?_ hone⟩
    apply UInt8.toNat_inj.mp
    have := congrArg UInt32.toNat hd
    simpa [TRUE] using this

end Values

/-- An item whose key and value can be read again. -/
structure Item.Fits (item : Item) : Prop where
  key : item.key.1.length ≤ stringLimit
  value : ∀ v, item.value = some v → Plain v

def pieces (ps : List (CStr × Bytes)) : Bytes := ps.flatMap fun p => wireString p.1.1 ++ p.2

def PiecesFit (ps : List (CStr × Bytes)) : Prop := ∀ p ∈ ps, p.1.1.length ≤ stringLimit ∧ ∀ rest,
    WireValue p.2 rest

variable {bytes : Bytes}

theorem writeItems_pieces (h : ∀ i ∈ items, i.Fits) (hw : writeItems items = .ok bytes) :
    ∃ ps, bytes = pieces ps ∧ PiecesFit ps ∧ ∀ p ∈ ps, p.1 ∈ items.map Item.key := by
  induction items generalizing bytes with
  | nil =>
    cases hw
    exact ⟨[], rfl, by simp [PiecesFit], by simp⟩
  | cons item items ih =>
    have hitem := h item mem_cons_self
    have hrest := (forall_mem_cons.mp h).2
    rw [writeItems] at hw
    split at hw
    · obtain ⟨ps, hps, hfit, hkeys⟩ := ih hrest hw
      exact ⟨ps, hps, hfit, fun p hp => mem_cons_of_mem _ (hkeys p hp)⟩
    obtain ⟨b1, h1, hw⟩ := bind_eq_ok.mp hw
    obtain ⟨b2, h2, hw⟩ := bind_eq_ok.mp hw
    cases hw
    obtain ⟨ps, rfl, hfit, hkeys⟩ := ih hrest h2
    unfold writeItem at h1
    split at h1
    · cases h1
    next v hv =>
    rw [stringToFile hitem.key, ok_bind] at h1
    obtain ⟨b, hb, h1⟩ := bind_eq_ok.mp h1
    cases h1
    refine ⟨(item.key, b) :: ps, by simp [pieces], ?_, ?_⟩
    · exact forall_mem_cons.mpr ⟨⟨hitem.key, (hitem.value v hv).wire hb⟩, hfit⟩
    · exact forall_mem_cons.mpr ⟨mem_cons_self, fun p hp => mem_cons_of_mem _ (hkeys p hp)⟩

/-- Reading a file that was written adds its keys. -/
theorem readItems_pieces {ps : List (CStr × Bytes)} (h : PiecesFit ps) {fuel : Nat}
    (hr : readItems fuel (pieces ps) items = .ok (items', e)) :
    e = none ∧ items'.map Item.key = items.map Item.key ++ ps.map Prod.fst := by
  induction ps generalizing fuel items with
  | nil =>
    have : readItems fuel (pieces []) items = .ok (items, none) := by cases fuel <;> rfl
    rw [this] at hr
    cases hr
    simp
  | cons p ps ih =>
    obtain ⟨hk, hv⟩ := h p mem_cons_self
    have hpieces : pieces (p :: ps) = wireString p.1.1 ++ (p.2 ++ pieces ps) := by simp [pieces]
    rw [hpieces] at hr
    rcases readItems_wire hk (hv (pieces ps)) fuel items with ⟨e', hstop⟩ | ⟨-, n, w, hnext⟩
    · rw [hstop] at hr
      cases hr
    · rw [hnext] at hr
      obtain ⟨he, hkeys⟩ := ih (forall_mem_cons.mp h).2 hr
      exact ⟨he, by simp [hkeys, cut_cstr]⟩

/-! ## Histories -/

/-- What modules and the main program do with the cache. -/
inductive Op where
  | setInt (module key : CStr) (value : Int64)
  | setString (module key value : CStr)
  | getInt (module key : CStr)
  | getString (module key : CStr)
  | remove (module key : CStr)
  | write (order : Order)
  | read
  | free

/-- One operation; an exception leaves the cache as it is by then. -/
def Op.apply (s : Cache) : Op → Res Cache
  | .setInt module key value => cacheSetInt s module key value
  | .setString module key value => do
    let (s, _) ← cacheSetString s module key value
    return s
  | .getInt module key => cacheGetInt s module key
  | .getString module key => cacheGetString s module key
  | .remove module key => return cacheRemove s module key
  | .write order => cacheWrite order s
  | .read => do
    let (s, _) ← cacheRead s
    return s
  | .free => return cacheFree s

/-- The cache with the keys that were removed and not set again since. After `erased` ones it was
written. -/
structure History where
  cache : Cache
  removed : List CStr
  erased : List CStr

def Op.sets : Op → Option CStr
  | .setInt module key _ => some (ckey module key)
  | .setString module key _ => some (ckey module key)
  | _ => none

def History.note (h : History) : Op → History
  | .remove module key => { h with removed := ckey module key :: h.removed }
  | .write _ => { h with removed := [], erased := h.removed ++ h.erased }
  | op => { h with
      removed := h.removed.filter fun k => some k ≠ op.sets, erased := h.erased.filter fun k =>
        some k ≠ op.sets }

def History.step (h : History) (op : Op) : Res History := do
  let cache ← op.apply h.cache
  return { h.note op with cache := cache }

/-- A write replaces the file, or there is none that is read; and nothing is read while a key is
removed and the file may still have it. -/
def Replaces (h : History) : Op → Prop
  | .write _ => h.cache.nocache = true ∨ h.cache.items ≠ [] ∨ h.cache.file = none
  | .read => h.cache.nocache = true ∨ h.removed = [] ∨ h.cache.file = none
  | _ => True

instance (h : History) : ∀ op, Decidable (Replaces h op)
  | .write _ => inferInstanceAs (Decidable (h.cache.nocache = true ∨ h.cache.items ≠ [] ∨ h.cache.file = none))
  | .read => inferInstanceAs (Decidable (h.cache.nocache = true ∨ h.removed = [] ∨ h.cache.file = none))
  | .setInt .. | .setString .. | .getInt .. | .getString .. | .remove .. | .free => .isTrue trivial

def FileWithout (keys : List CStr) (file : Option Bytes) : Prop :=
  ∀ bytes, file = some bytes → ∃ ps, bytes = wireString versionText.1 ++ pieces ps ∧ PiecesFit ps ∧
    ∀ k ∈ keys, k ∉ ps.map Prod.fst

structure History.Kept (h : History) : Prop where
  fits : ∀ i ∈ h.cache.items, i.Fits
  absent : ∀ k ∈ h.removed ++ h.erased, k ∉ h.cache.keys
  file : h.cache.nocache = true ∨ h.erased = [] ∨ FileWithout h.erased h.cache.file
  unlinked : h.cache.ccfile = .unlinked → h.cache.file = none

variable {items items' : List Item} {op : Op}

theorem ckey_fits (module key : CStr) : (ckey module key).1.length ≤ stringLimit := by
  have h1 : (ckey module key).1.length ≤ ((module.1 ++ 47 :: key.1).take 4159).length :=
    (takeWhile_sublist _).length_le
  rw [length_take] at h1
  unfold stringLimit
  omega

theorem true_byte : TRUE.toNat < 256 := by decide

theorem stringValue_plain (h : str.length ≤ stringLimit) : Plain (stringValue str) :=
  ⟨true_byte, h, fun _ => by simp [stringValue, NxValue.type, Data.type]⟩

/-! ## Steps -/

/-- What an operation that does not touch the file may do: the keys stay, except those it sets. -/
structure Edits (op : Op) (s s' : Cache) : Prop where
  nocache : s'.nocache = s.nocache
  file : s'.file = s.file
  ccfile : s'.ccfile = s.ccfile
  fits : (∀ i ∈ s.items, i.Fits) → ∀ i ∈ s'.items, i.Fits
  keys : ∀ k ∈ s'.keys, k ∈ s.keys ∨ some k = op.sets

variable {keys : List CStr}

section Steps

variable {s s' : Cache} {op : Op}

theorem Edits.refl (op : Op) (s : Cache) : Edits op s s := ⟨rfl, rfl, rfl, id, fun _ hk => .inl hk⟩

variable {key : CStr}

theorem edits_update {f : Item → Item} (hkey : ∀ i, (f i).key = i.key)
    (hfits : ∀ i : Item, i.Fits → (f i).Fits) : Edits op s (s.update key f) := by
  refine ⟨rfl, rfl, rfl, ?_, ?_⟩
  · intro h i hi
    obtain ⟨j, hj, rfl⟩ := mem_map.mp hi
    split
    · exact hfits j (h j hj)
    · exact h j hj
  · intro k hk
    left
    have hsame : (s.update key f).keys = s.keys := by
      unfold Cache.keys Cache.update
      rw [map_map]
      apply map_congr_left
      intro i _
      dsimp only [Function.comp]
      split
      · exact hkey i
      · rfl
    rwa [hsame] at hk

theorem edits_add {item : Item} (hitem : item.Fits) (hkey : some item.key = op.sets) :
    Edits op s (s.add item) := by
  refine ⟨rfl, rfl, rfl, ?_, ?_⟩
  · exact fun h => forall_mem_append.mpr ⟨h, forall_mem_singleton.mpr hitem⟩
  · intro k hk
    have hcases : k ∈ s.keys ∨ k = item.key := by simpa [Cache.keys, Cache.add, or_comm] using hk
    exact hcases.imp_right fun hk => (congrArg some hk).trans hkey

theorem edits_get {type : ValueType} (h : cacheGet type s key = .ok s') : Edits op s s' := by
  unfold cacheGet at h
  split at h
  · cases h
    exact Edits.refl op s
  · obtain ⟨t, -, h⟩ := bind_eq_ok.mp h
    cases h
    split
    · exact edits_update (fun _ => rfl) fun i hi => ⟨hi.key, hi.value⟩
    · exact Edits.refl op s

theorem edits_setInt {module : CStr} {value : Int64} (h : cacheSetInt s module key value = .ok s') :
    Edits (.setInt module key value) s s' := by
  unfold cacheSetInt at h
  split at h
  · obtain ⟨t, -, h⟩ := bind_eq_ok.mp h
    obtain ⟨-, -, h⟩ := bind_eq_ok.mp h
    cases h
    refine edits_update (fun _ => rfl) fun i hi => ⟨hi.key, ?_⟩
    intro v hv
    obtain ⟨v0, hv0, rfl⟩ := Option.map_eq_some_iff.mp hv
    exact ⟨(hi.value v0 hv0).byte, trivial, fun _ => by simp [NxValue.type, Data.type]⟩
  · cases h
    refine edits_add ⟨ckey_fits module key, ?_⟩ rfl
    rintro v hv
    cases hv
    exact ⟨true_byte, trivial, fun _ => by simp [NxValue.type, Data.type]⟩

theorem edits_setString {module value : CStr}
    (h : cacheSetString s module key value = .ok (s', e)) : Edits (.setString module key value) s s' := by
  unfold cacheSetString at h
  split at h
  · obtain ⟨t, -, h⟩ := bind_eq_ok.mp h
    obtain ⟨-, -, h⟩ := bind_eq_ok.mp h
    split at h
    · next hlen =>
      cases h
      refine edits_update (fun _ => rfl) fun i hi => ⟨hi.key, ?_⟩
      rintro v hv
      cases hv
      exact stringValue_plain hlen
    · cases h
      exact edits_update (fun _ => rfl) fun i hi => ⟨hi.key, by simp⟩
  · split at h
    · next hlen =>
      cases h
      refine edits_add ⟨ckey_fits module key, ?_⟩ rfl
      rintro v hv
      cases hv
      exact stringValue_plain hlen
    · cases h
      exact Edits.refl _ s

theorem readItem_fits {buf : Bytes} {item : Item} {n : Nat} (h : readItem buf = .ok (item, n)) :
    item.Fits := by
  obtain ⟨⟨key, readsize⟩, hkey, h⟩ := bind_eq_ok.mp h
  dsimp only at h
  split at h
  · cases h
  · next str hdata =>
    obtain ⟨⟨value, size⟩, hvalue, h⟩ := bind_eq_ok.mp h
    obtain ⟨-, -, h⟩ := bind_eq_ok.mp h
    cases h
    refine ⟨?_, ?_⟩
    · have hfits := valueFromMembuf_stringFits hkey
      rw [hdata] at hfits
      exact Nat.le_trans (takeWhile_sublist _).length_le hfits
    · rintro v hv
      cases hv
      exact plain_of_decoded hvalue
  · cases h

/-- Reading keeps what is there, and adds items that were decoded. -/
theorem readItems_fits {fuel : Nat} {buf : Bytes}
    (h : readItems fuel buf items = .ok (items', e)) (hitems : ∀ i ∈ items, i.Fits) : ∀ i ∈ items',
    i.Fits := by
  fun_induction readItems fuel buf items with
  | case1 =>
    cases h
    exact hitems
  | case2 => cases h
  | case3 =>
    cases h
    exact hitems
  | case4 => cases h
  | case5 fuel b buf items item bytesread hread ih =>
    obtain ⟨-, -, h⟩ := bind_eq_ok.mp h
    obtain ⟨-, -, h⟩ := bind_eq_ok.mp h
    exact ih h (forall_mem_append.mpr ⟨hitems, forall_mem_singleton.mpr (readItem_fits hread)⟩)

theorem readFile_fits
    (h : readFile file items = .ok (items', e)) (hitems : ∀ i ∈ items, i.Fits) : ∀ i ∈ items', i.Fits := by
  unfold readFile at h
  split at h
  · cases h; exact hitems
  split at h
  · cases h; exact hitems
  · split at h
    · cases h; exact hitems
    · cases h
    · exact readItems_fits h hitems

/-- A file without these keys does not bring them back. -/
theorem readFile_without (h : FileWithout keys (some file)) (hr : readFile file items = .ok (items', e)) :
    ∀ k ∈ keys, k ∈ items'.map Item.key → k ∈ items.map Item.key := by
  obtain ⟨ps, rfl, hfit, hkeys⟩ := h file rfl
  intro k hk hmem
  by_cases hlen : cacheLimit < (wireString versionText.1 ++ pieces ps).length
  · rw [readFile, if_pos hlen] at hr
    cases hr
    exact hmem
  · rw [readFile_version versionText_fits (cut_cstr _) (by omega)] at hr
    rw [(readItems_pieces hfit hr).2] at hmem
    exact (mem_append.mp hmem).resolve_right (hkeys k hk)

end Steps

section Keeping

variable {h h' : History}

/-- An operation that does not touch the file. -/
theorem History.Kept.edits (hk : h.Kept) (he : Edits op h.cache s) (hnote : h.note op = { h with
      removed := h.removed.filter fun k => some k ≠ op.sets, erased := h.erased.filter fun k =>
      some k ≠ op.sets }) :
    History.Kept { h.note op with cache := s } := by
  rw [hnote]
  refine ⟨he.fits hk.fits, ?_, ?_, ?_⟩
  · intro k hmem hin
    have hmem : k ∈ h.removed ++ h.erased ∧ some k ≠ op.sets := by
      simpa [← filter_append] using hmem
    rcases he.keys k hin with hin | hset
    · exact hk.absent k hmem.1 hin
    · exact hmem.2 hset
  · show s.nocache = true ∨ _ ∨ FileWithout _ s.file
    rw [he.nocache, he.file]
    rcases hk.file with hno | hnil | hfile
    · exact .inl hno
    · exact .inr (.inl (by simp [hnil]))
    · refine .inr (.inr fun bytes hb => ?_)
      obtain ⟨ps, hps, hfit, hkeys⟩ := hfile bytes hb
      exact ⟨ps, hps, hfit, fun k hmem => hkeys k (mem_filter.mp hmem).1⟩
  · show s.ccfile = .unlinked → s.file = none
    rw [he.ccfile, he.file]
    exact hk.unlinked

theorem History.Kept.remove (hk : h.Kept) (module key : CStr) :
    History.Kept { h.note (.remove module key) with cache := cacheRemove h.cache module key } := by
  refine ⟨fun i hi => hk.fits i (mem_filter.mp hi).1, ?_, hk.file, hk.unlinked⟩
  intro k hmem hin
  obtain ⟨i, hi, rfl⟩ := mem_map.mp hin
  obtain ⟨hi, hne⟩ := mem_filter.mp hi
  have hne : i.key ≠ ckey module key := by simpa using hne
  have hmem : i.key = ckey module key ∨ i.key ∈ h.removed ++ h.erased := by
    simpa [History.note] using hmem
  exact hk.absent _ (hmem.resolve_left hne) (mem_map.mpr ⟨i, hi, rfl⟩)

variable {order : Order}

/-- What is written has only keys of the cache. -/
theorem fileOf_without (hfits : ∀ i ∈ items, i.Fits)
    (h : fileOf order items = .ok bytes) (hkeys : ∀ k ∈ keys, k ∉ items.map Item.key) :
    FileWithout keys (some bytes) := by
  have hwalk := order.perm items
  rw [fileOf, stringToFile versionText_fits, ok_bind] at h
  obtain ⟨more, hmore, h⟩ := bind_eq_ok.mp h
  cases h
  obtain ⟨ps, rfl, hfit, hps⟩ := writeItems_pieces (fun i hi => hfits i (hwalk.mem_iff.mp hi)) hmore
  rintro bytes hb
  cases hb
  refine ⟨ps, rfl, hfit, fun k hk hmem => hkeys k hk ?_⟩
  obtain ⟨p, hp, rfl⟩ := mem_map.mp hmem
  exact (hwalk.map Item.key).mem_iff.mp (hps p hp)

theorem History.Kept.write (hk : h.Kept) (hok : Replaces h (.write order))
    (hw : cacheWrite order h.cache = .ok s) : History.Kept { h.note (.write order) with cache := s } := by
  have hgone : ∀ k ∈ ([] : List CStr) ++ (h.removed ++ h.erased), k ∉ h.cache.keys := by simpa using hk.absent
  have hnone : ∀ {keys : List CStr}, h.cache.file = none → FileWithout keys h.cache.file := by
    intro keys hfile bytes hb
    rw [hfile] at hb
    cases hb
  unfold cacheWrite at hw
  split at hw
  · next hno =>
    cases hw
    exact ⟨hk.fits, hgone, .inl hno, hk.unlinked⟩
  · split at hw
    · next hlen =>
      -- nothing is written: the file must not be there
      cases hw
      refine ⟨hk.fits, hgone, ?_, hk.unlinked⟩
      have hnil : h.cache.items = [] := length_eq_zero_iff.mp hlen
      rcases hok with hok | hok | hok
      · exact .inl hok
      · exact absurd hnil hok
      · exact .inr (.inr (hnone hok))
    · obtain ⟨bytes, hbytes, hw⟩ := bind_eq_ok.mp hw
      have hfile := fileOf_without hk.fits hbytes hk.absent
      cases hw
      split
      · exact ⟨hk.fits, hgone, .inr (.inr hfile), by simp⟩
      · next hopen => exact ⟨hk.fits, hgone, .inr (.inr hfile), by simp [hopen]⟩
      · next hun => exact ⟨hk.fits, hgone, .inr (.inr (hnone (hk.unlinked hun))), hk.unlinked⟩

theorem History.Kept.read (hk : h.Kept) (hok : Replaces h .read)
    (hr : cacheRead h.cache = .ok (s, e)) : History.Kept { h with cache := s } := by
  unfold cacheRead at hr
  split at hr
  · cases hr
    exact hk
  next hno =>
  split at hr
  · cases hr
    exact hk
  next file hfile =>
  obtain ⟨⟨items, e'⟩, hread, hr⟩ := bind_eq_ok.mp hr
  have hremoved : h.removed = [] := by
    rcases hok with hok | hok | hok
    · exact absurd hok hno
    · exact hok
    · rw [hok] at hfile
      cases hfile
  have hgone : ∀ k ∈ h.removed ++ h.erased, k ∉ items.map Item.key := by
    intro k hmem hin
    refine hk.absent k hmem ?_
    rw [hremoved, nil_append] at hmem
    rcases hk.file with hcon | hnil | hwithout
    · exact absurd hcon hno
    · rw [hnil] at hmem
      cases hmem
    · rw [hfile] at hwithout
      exact readFile_without hwithout hread k hmem hin
  have hfits := readFile_fits hread hk.fits
  cases e' with
  | none =>
    cases hr
    exact ⟨hfits, hgone, hk.file, hk.unlinked⟩
  | some msg =>
    -- the file is removed
    cases hr
    exact ⟨hfits, hgone, .inr (.inr fun bytes hb => by cases hb), fun _ => rfl⟩

theorem History.Kept.step (hk : h.Kept) (hok : Replaces h op) (hstep : h.step op = .ok h') : h'.Kept := by
  obtain ⟨s, hs, hh⟩ := bind_eq_ok.mp hstep
  clear hstep
  cases hh
  have hall (l : List CStr) : l.filter (fun _ => true) = l := filter_eq_self.mpr (by simp)
  cases op with
  | setInt module key value => exact hk.edits (edits_setInt hs) rfl
  | setString module key value =>
    obtain ⟨⟨s1, e⟩, hset, hs⟩ := bind_eq_ok.mp hs
    cases hs
    exact hk.edits (edits_setString hset) rfl
  | getInt module key | getString module key => exact hk.edits (edits_get hs) rfl
  | remove module key =>
    cases hs
    exact hk.remove module key
  | write order => exact hk.write hok hs
  | read =>
    obtain ⟨⟨s1, e⟩, hread, hs⟩ := bind_eq_ok.mp hs
    cases hs
    have hnote : h.note .read = h := by simp [History.note, Op.sets, hall]
    rw [hnote]
    exact hk.read hok hread
  | free =>
    cases hs
    have hnote : h.note .free = h := by simp [History.note, Op.sets, hall]
    rw [hnote]
    exact ⟨by simp [cacheFree], by simp [cacheFree, Cache.keys], hk.file, by simp [cacheFree]⟩

end Keeping

/-- A program that starts with any file. -/
def started (nocache : Bool) (file : Option Bytes) : History := ⟨⟨nocache, [], file, .closed⟩, [], []⟩

/-- A key that was removed, and not set again before the cache was written, stays away until it is
set again, in every run in which no write finds the cache empty and the file there. -/
theorem removed_keys_stay_removed (nocache : Bool) (file : Option Bytes) (ops : List Op)
    (h : Meets History.step Replaces (started nocache file) ops) :
    Always History.step (fun h => ∀ k ∈ h.erased, k ∉ h.cache.keys) (started nocache file) ops := by
  have hstart : (started nocache file).Kept :=
    ⟨by simp [started], by simp [started], .inr (.inl rfl), by simp [started]⟩
  have hall := always_of_step (fun s op s' hs hok hstep => History.Kept.step hs hok hstep) hstart h.allSteps
  exact hall.mono fun s hs k hk => hs.absent k (mem_append_right _ hk)

def sampleModule : CStr := ⟨[102], by decide⟩

def sampleKey : CStr := ⟨[112], by decide⟩

def otherKey : CStr := ⟨[113], by decide⟩

/-- Of two keys one is removed; the program is started again. -/
theorem removed_key_of_two :
    Always History.step (fun h => ∀ k ∈ h.erased, k ∉ h.cache.keys) (started false none)
      [.setInt sampleModule sampleKey 1, .setInt sampleModule otherKey 2, .write inserted,
        .remove sampleModule sampleKey, .write inserted, .free, .read] :=
  removed_keys_stay_removed false none _ (by decide +kernel)

/-- The only key is removed: the file stays, and the key comes back. -/
theorem last_key_comes_back :
    ∃ h, run History.step (started false none)
        [.setInt sampleModule sampleKey 1, .write inserted, .remove sampleModule sampleKey,
          .write inserted, .free,
          .read] = .ok h ∧ ckey sampleModule sampleKey ∈ h.erased ∧ ckey sampleModule sampleKey ∈
            h.cache.keys := by
  exact ⟨_, rfl, by decide, by decide⟩

end Nxlog.L4.ConfigCache
