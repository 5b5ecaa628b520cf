import Nxlog.L3Protocol.Syslog

/-!
# What the syslog writers write

The writers change the string of `raw_event` while they read the other fields. In a
record whose fields own different strings this is the same as building the text first:
each stage appends a text that depends on the record as it was.

* `onRaw_setString`, `view_setString`: writing to `raw_event` leaves the other fields.
* `Appends`: a stage appends a text, as far as it fits; stages compose.
* `logdataToSyslogRfc3164_eq`, `logdataToSyslogRfc5424_eq`: the text of the whole record.
-/
namespace Nxlog.L3
open L1 L2 Res List

/-! ## Writing to `raw_event` -/

theorem setStringIn_setStringIn (addr : Nat) (a b : Bytes) (v : NxValue) :
    setStringIn addr b (setStringIn addr a v) = setStringIn addr b v := by
  have h := string?_setStringIn addr a v
  unfold setStringIn at h ⊢
  cases hs : v.string? with
  | none => simp [hs]
  | some s =>
    by_cases ha : s.addr = addr
    · simp [ha, NxValue.string?, (string?_some hs).1]
    · simp [hs, ha]

theorem setString_setString (ld : Logdata) (addr : Nat) (a b : Bytes) :
    setString (setString ld addr a) addr b = setString ld addr b := by
  simp only [setString, map_map]
  congr 1
  · apply map_congr_left
    intro f _
    simp [setStringIn_setStringIn]
  · apply map_congr_left
    intro s _
    by_cases h : s.addr = addr <;> simp [h]

section Raw

variable {s : Store} (hs : Good s) {addr : Nat} (hraw : s.ld.raw_event = some addr)
include hs hraw

/-- A field under another name does not own the string of `raw_event`. -/
theorem setStringIn_other {f : Field} (hf : f ∈ s.ld.fields) (hk : ¬ strcasecmp f.key rawEvent)
    (buf : Bytes) : setStringIn addr buf f.value = f.value := by
  obtain ⟨hw, g, t, hg, ht, hptr⟩ := hs
  rw [hptr] at hraw
  cases hraw
  unfold setStringIn
  cases hv : f.value.string? with
  | none => rfl
  | some u =>
    obtain ⟨hgm, hgk⟩ := getField_some hg
    have hne : f ≠ g := fun h => hk (h ▸ hgk)
    have hapart : Apart f g := hw.apart.forall hf hgm hne
    simp [hapart.2 u t hv ht]

theorem view_setString {k : CStr} (hk : ¬ strcasecmp k rawEvent) (buf : Bytes) :
    view (setString s.ld addr buf) k = view s.ld k := by
  rw [view, view, getField_setString, Option.map_map]
  cases hf : getField s.ld k with
  | none => rfl
  | some f =>
    obtain ⟨hmem, hname⟩ := getField_some hf
    have hne : ¬ strcasecmp f.key rawEvent := fun h => hk (strcasecmp_trans (strcasecmp_comm.mp hname) h)
    simp [setStringIn_other hs hraw hmem hne]

theorem deref_raw (buf : Bytes) : ∃ t, deref (setString s.ld addr buf) addr = some t ∧ t.buf = buf := by
  have hlive := (good_setString hs addr buf).inv.live addr hraw
  obtain ⟨t, ht⟩ := Option.isSome_iff_exists.mp hlive
  exact ⟨t, ht, deref_setString ht⟩

theorem onRaw_setString (f : Bytes → Res Bytes) (buf : Bytes) :
    onRaw f (setString s.ld addr buf) = f buf >>= fun out => .ok (setString s.ld addr out) := by
  obtain ⟨t, ht, rfl⟩ := deref_raw hs hraw buf
  have hptr : (setString s.ld addr t.buf).raw_event = some addr := hraw
  rw [onRaw, hptr]
  dsimp only
  rw [ht]
  dsimp only
  congr 1
  funext out
  rw [setString_setString]
  rfl

/-- Whatever `raw_event` was, it is overwritten first. -/
theorem onRaw_start (text : Bytes) : onRaw (fun _ => .ok text) s.ld = .ok (setString s.ld addr text) := by
  have hlive := hs.inv.live addr hraw
  obtain ⟨t, ht⟩ := Option.isSome_iff_exists.mp hlive
  rw [onRaw, hraw]
  dsimp only
  rw [ht]
  rfl

end Raw

/-! ## Stages -/

/-- `nx_string_append` of a string appends this much of it: all, unless its length is
negative as an `int`. -/
def appended (buf : Bytes) : Bytes :=
  if cInt buf.length < 0 then (cut buf).1 else buf.take (cInt buf.length).toNat

theorem appended_of_lt {buf : Bytes} (h : buf.length < 2 ^ 31) : appended buf = buf := by
  rw [appended, cInt_of_lt h, if_neg (by omega), Int.toNat_natCast, take_length]

/-- A stage appends `text`, as far as it fits. -/
def Appends (f : Bytes → Res Bytes) (text : Bytes) : Prop := ∀ dst, f dst = .ok (appendCut dst text)

theorem Appends.bind {f g : Bytes → Res Bytes} {x y : Bytes} (hf : Appends f x) (hg : Appends g y) :
    Appends (fun dst => f dst >>= g) (x ++ y) := by
  intro dst
  dsimp only
  rw [hf, ok_bind, hg, appendCut_appendCut]

theorem appends_text (text : Bytes) :
    Appends (fun dst => stringAppend dst (text ++ [0]) text.length) text := by
  intro dst
  dsimp only
  rw [stringAppend_eq (by simp), take_left' rfl]

theorem appendString_eq (dst buf : Bytes) : appendString dst buf = .ok (appendCut dst (appended buf)) := by
  unfold appendString appended
  by_cases h : cInt buf.length < 0
  · -- a negative length asks for `strlen`
    obtain ⟨t, ht⟩ := exists_cut buf
    have hlen : appendLen (buf ++ [0]) (cInt buf.length) = appendLen (buf ++ [0])
      ((cut buf).1.length : Nat) := by
      rw [appendLen, if_pos h, ht, strlen_cstr _ (cut buf).2, appendLen, if_neg (by omega), Int.toNat_natCast]
    have heq : stringAppend dst (buf ++ [0]) ((cut buf).1.length : Nat) =
        .ok (appendCut dst ((buf ++ [0]).take (cut buf).1.length)) := stringAppend_eq (by rw [ht]; simp)
    have htake : (buf ++ [0]).take (cut buf).1.length = (cut buf).1 := by rw [ht, take_left' rfl]
    rw [if_pos h, stringAppend, hlen, ← stringAppend, heq, htake]
  · have hle : (cInt buf.length).toNat ≤ buf.length := by
      unfold cInt at h ⊢
      rw [Int.bmod_def] at h ⊢
      omega
    have hnat : cInt buf.length = ((cInt buf.length).toNat : Nat) := by omega
    have heq : stringAppend dst (buf ++ [0]) ((cInt buf.length).toNat : Nat) =
        .ok (appendCut dst ((buf ++ [0]).take (cInt buf.length).toNat)) := stringAppend_eq (by simp; omega)
    rw [if_neg h, hnat, heq, Int.toNat_natCast, take_append_of_le_length hle]

theorem appendReplaced_eq (replace : UInt8 → UInt8) (dst buf : Bytes) :
    appendReplaced replace dst buf = .ok (appendCut dst ((appended buf).map replace)) := by
  rw [appendReplaced, appendString_eq, ok_bind]
  simp [appendCut, map_take]

theorem Appends.thenSpace {f : Bytes → Res Bytes} {x : Bytes} (hf : Appends f x) :
    Appends (thenSpace f) (x ++ [32]) :=
  hf.bind fun dst => stringAppend_byte dst 32

theorem appends_message (msg : Bytes) : Appends (appendMessage msg) (32 :: (appended msg).map unbreak) := by
  intro dst
  rw [appendMessage, stringAppend_byte, ok_bind, appendReplaced_eq, appendCut_appendCut, singleton_append]

/-! ## The parts of the text -/

variable (ld : Logdata)

def strOf (key : CStr) : Option Bytes := ((view ld key).bind NxValue.string?).map NxString.buf

def hostText (env : SyslogEnv) (ld : Logdata) : Bytes :=
  appended ((strOf ld (lit "Hostname")).getD env.hostname)

def pidText : Bytes :=
  match view ld (lit "ProcessID") with
  | none => []
  | some v =>
    if v.defined = TRUE then
      match v.data with
      | .integer i => (91 :: (decimal i.toInt ++ [93])).take 19
      | .string (some str) => 91 :: (appended str.buf ++ [93])
      | _ => []
    else []

def tagText : Bytes :=
  match strOf ld (lit "SourceName") with
  | none => []
  | some [] => []
  | some buf => 32 :: ((appended buf).map underscore ++ (pidText ld ++ [58]))

def appText : Bytes :=
  match strOf ld (lit "SourceName") with
  | none => [45]
  | some [] => [45]
  | some buf => (appended buf).map underscore

def procidText : Bytes :=
  match view ld (lit "ProcessID") with
  | none => [45]
  | some v =>
    if v.defined = TRUE then
      match v.data with
      | .integer i => decimal i.toInt
      | .string (some str) => if str.buf = [] then [45] else appended str.buf
      | _ => [45]
    else [45]

def msgidText : Bytes :=
  match strOf ld (lit "MessageID") with
  | none => [45]
  | some buf => appended buf

section Parts

variable {s : Store} (hs : Good s)
include hs

theorem owned_of_view {k : CStr} {v : NxValue} (h : view s.ld k = some v) : Owned v := by
  obtain ⟨f, hf, rfl⟩ := Option.map_eq_some_iff.mp h
  exact (hs.1.ok f (getField_some hf).1).owned

/-- The string is there if the field is defined. -/
theorem strField_eq (k : CStr) : strField s.ld k = .ok (strOf s.ld k) := by
  unfold strField strOf
  cases hv : view s.ld k with
  | none => rfl
  | some v =>
    obtain ⟨d, data⟩ := v
    have hown := owned_of_view hs hv
    cases data with
    | string str =>
      by_cases hd : d = TRUE
      · obtain ⟨t, rfl⟩ := Option.isSome_iff_exists.mp ((hown str rfl).mpr hd)
        simp [hd, NxValue.string?]
      · simp [hd, NxValue.string?]
    | _ => rfl

theorem appends_hostname (env : SyslogEnv) : Appends (appendHostname env s.ld) (hostText env s.ld) := by
  intro dst
  rw [appendHostname, strField_eq hs, ok_bind, appendString_eq, hostText]

theorem appends_pid : Appends (appendPid s.ld) (pidText s.ld) := by
  intro dst
  have hnil : Except.ok dst = (.ok (appendCut dst []) : Res Bytes) := by simp [appendCut]
  unfold appendPid pidText
  cases hv : view s.ld (lit "ProcessID") with
  | none => exact hnil
  | some v =>
    obtain ⟨d, data⟩ := v
    have hown := owned_of_view hs hv
    dsimp only
    by_cases hd : d = TRUE
    · rw [if_pos hd, if_pos hd]
      cases data with
      | integer i => exact appends_text _ dst
      | string str =>
        obtain ⟨t, rfl⟩ := Option.isSome_iff_exists.mp ((hown str rfl).mpr hd)
        dsimp only
        rw [stringAppend_byte, ok_bind, appendString_eq, ok_bind, stringAppend_byte,
          appendCut_appendCut, appendCut_appendCut, singleton_append]
      | _ => exact hnil
    · rw [if_neg hd, if_neg hd]
      exact hnil

theorem appends_tag : Appends (appendTag s.ld) (tagText s.ld) := by
  intro dst
  have hnil : Except.ok dst = (.ok (appendCut dst []) : Res Bytes) := by simp [appendCut]
  rw [appendTag, strField_eq hs, ok_bind, tagText]
  cases strOf s.ld (lit "SourceName") with
  | none => exact hnil
  | some buf =>
    cases buf with
    | nil => exact hnil
    | cons c buf =>
      dsimp only
      rw [stringAppend_byte, ok_bind, appendReplaced_eq, ok_bind, appends_pid hs, ok_bind,
        stringAppend_byte, appendCut_appendCut, appendCut_appendCut, appendCut_appendCut, singleton_append]

theorem appends_appname : Appends (appendAppname s.ld) (appText s.ld) := by
  intro dst
  rw [appendAppname, strField_eq hs, ok_bind, appText]
  cases strOf s.ld (lit "SourceName") with
  | none => exact stringAppend_byte dst 45
  | some buf =>
    cases buf with
    | nil => exact stringAppend_byte dst 45
    | cons c buf => exact appendReplaced_eq underscore dst (c :: buf)

theorem appends_procid : Appends (appendProcid s.ld) (procidText s.ld) := by
  intro dst
  unfold appendProcid procidText
  cases hv : view s.ld (lit "ProcessID") with
  | none => exact stringAppend_byte dst 45
  | some v =>
    obtain ⟨d, data⟩ := v
    have hown := owned_of_view hs hv
    dsimp only
    by_cases hd : d = TRUE
    · rw [if_pos hd, if_pos hd]
      cases data with
      | integer i => exact appends_text _ dst
      | string str =>
        obtain ⟨t, rfl⟩ := Option.isSome_iff_exists.mp ((hown str rfl).mpr hd)
        dsimp only
        by_cases h : t.buf = []
        · rw [if_pos h, if_pos h, stringAppend_byte]
        · rw [if_neg h, if_neg h, appendString_eq]
      | _ => exact stringAppend_byte dst 45
    · rw [if_neg hd, if_neg hd]
      exact stringAppend_byte dst 45

theorem appends_msgid : Appends (appendMsgid s.ld) (msgidText s.ld) := by
  intro dst
  rw [appendMsgid, strField_eq hs, ok_bind, msgidText]
  cases strOf s.ld (lit "MessageID") with
  | none => exact stringAppend_byte dst 45
  | some buf => exact appendString_eq dst buf

end Parts

def sdOf (env : SyslogEnv) (ld : Logdata) : Res Bytes := do
  let sd ← stringAppend [] (ascii "[NXLOG@14506 " ++ [0]) (-1)
  let (sd, cnt) ← run (appendSdField env) (sd, 0) ld.fields
  let sd ← stringAppend sd [93] 1
  return if cnt = 0 then [45] else appended sd

theorem syslogAddStructuredData_eq (env : SyslogEnv) (ld : Logdata) (dst : Bytes) :
    syslogAddStructuredData env ld dst = sdOf env ld >>= fun sd => .ok (appendCut dst sd) := by
  simp only [syslogAddStructuredData, sdOf, bind_assoc, pure_eq, ok_bind]
  congr 1
  funext sd
  congr 1
  funext st
  rw [stringAppend_byte, ok_bind, ok_bind]
  by_cases h : st.2 = 0
  · rw [if_pos h, if_pos h, stringAppend_byte]
  · rw [if_neg h, if_neg h, appendString_eq]

/-! ## The whole text -/

section Frame

variable {s : Store} (hs : Good s) {addr : Nat} (hraw : s.ld.raw_event = some addr)
include hs hraw

/-- The stages read other fields only. -/
theorem stages_setString (env : SyslogEnv) (buf : Bytes) :
    appendHostname env (setString s.ld addr buf) = appendHostname env s.ld ∧
      appendTag (setString s.ld addr buf) = appendTag s.ld ∧
      appendAppname (setString s.ld addr buf) = appendAppname s.ld ∧
      appendProcid (setString s.ld addr buf) = appendProcid s.ld ∧
      appendMsgid (setString s.ld addr buf) = appendMsgid s.ld := by
  have hview : ∀ k ∈ [lit "Hostname", lit "SourceName", lit "ProcessID", lit "MessageID"],
      view (setString s.ld addr buf) k = view s.ld k := fun k hk =>
    view_setString hs hraw (by revert k; decide) buf
  simp only [mem_cons, forall_eq_or_imp, not_mem_nil, false_imp_iff, implies_true, and_true] at hview
  obtain ⟨hhost, hname, hproc, hmsg⟩ := hview
  refine ⟨?_, ?_, ?_, ?_, ?_⟩ <;> funext dst
  · simp only [appendHostname, strField, hhost]
  · have hpid : appendPid (setString s.ld addr buf) = appendPid s.ld := by
      funext dst
      rw [appendPid, hproc, appendPid]
    simp only [appendTag, strField, hname, hpid]
  · simp only [appendAppname, strField, hname]
  · rw [appendProcid, hproc, appendProcid]
  · simp only [appendMsgid, strField, hmsg]

/-- A field that is written is not `raw_event`, and the others stay unwritten. -/
theorem appendSdField_setString (env : SyslogEnv) (buf : Bytes) {f : Field} (hf : f ∈ s.ld.fields)
    (sd : Bytes × Nat) :
    appendSdField env sd ⟨f.key, setStringIn addr buf f.value⟩ = appendSdField env sd f := by
  by_cases hk : strcasecmp f.key rawEvent
  · have hno : ∀ v, inSd ⟨f.key, v⟩ = false := by
      intro v
      rw [inSd, decide_eq_false_iff_not]
      intro h
      exact h.1 rawEvent (by decide) hk
    simp [appendSdField, hno]
  · rw [setStringIn_other hs hraw hf hk]

theorem sdOf_setString (env : SyslogEnv) (buf : Bytes) : sdOf env (setString s.ld addr buf) =
    sdOf env s.ld := by
  have hrun : ∀ (fs : List Field), (∀ f ∈ fs, f ∈ s.ld.fields) → ∀ sd, run (appendSdField env) sd
      (fs.map fun f => ⟨f.key, setStringIn addr buf f.value⟩) = run (appendSdField env) sd fs := by
    intro fs
    induction fs with
    | nil => intro _ sd; rfl
    | cons f fs ih =>
      intro hmem sd
      rw [map_cons, run_cons, run_cons, appendSdField_setString hs hraw env buf (hmem f mem_cons_self)]
      congr 1
      funext sd
      exact ih (forall_mem_cons.mp hmem).2 sd
  unfold sdOf
  congr 1
  funext sd
  have h := hrun s.ld.fields (fun _ h => h) (sd, 0)
  rw [show (setString s.ld addr buf).fields = s.ld.fields.map fun f =>
    ⟨f.key, setStringIn addr buf f.value⟩ from rfl,
    h]

theorem logdataToSyslogRfc3164_eq (env : SyslogEnv) : logdataToSyslogRfc3164 env s.ld = (do
    let msg ← messageText s.ld
    let pri ← syslogGetPriority s.ld
    let date ← dateToRfc3164 env.date (eventTime env s.ld)
    let date ← writtenDate date
    .ok (setString s.ld addr (appendCut (priText pri [] date)
      (hostText env s.ld ++ (tagText s.ld ++ 32 :: (appended msg).map unbreak))))) := by
  unfold logdataToSyslogRfc3164
  congr 1; funext msg
  congr 1; funext pri
  congr 1; funext date
  congr 1; funext date
  rw [onRaw_start hs hraw, ok_bind, (stages_setString hs hraw env _).1, onRaw_setString hs hraw,
    appends_hostname hs env, ok_bind, ok_bind, (stages_setString hs hraw env _).2.1,
    onRaw_setString hs hraw, appends_tag hs, ok_bind, ok_bind, onRaw_setString hs hraw,
    appends_message, ok_bind, appendCut_appendCut, appendCut_appendCut]

def ietfHeader (env : SyslogEnv) (ld : Logdata) : Bytes :=
  hostText env ld ++ 32 :: (appText ld ++ 32 :: (procidText ld ++ 32 :: (msgidText ld ++ [32])))

theorem logdataToSyslogRfc5424_eq (env : SyslogEnv) (gmt : Bool) : logdataToSyslogRfc5424 env gmt s.ld = (do
    let msg ← messageText s.ld
    let pri ← syslogGetPriority s.ld
    let date ← writtenDate (dateToRfc5424 env.date gmt (eventTime env s.ld))
    let sd ← sdOf env s.ld
    .ok (setString s.ld addr (appendCut (priText pri [49, 32] date)
      (ietfHeader env s.ld ++ (sd ++ 32 :: (appended msg).map unbreak))))) := by
  unfold logdataToSyslogRfc5424
  congr 1; funext msg
  congr 1; funext pri
  congr 1; funext date
  rw [onRaw_start hs hraw, ok_bind, (stages_setString hs hraw env _).1, onRaw_setString hs hraw,
    (appends_hostname hs env).thenSpace, ok_bind, ok_bind, (stages_setString hs hraw env _).2.2.1,
    onRaw_setString hs hraw, (appends_appname hs).thenSpace, ok_bind, ok_bind,
    (stages_setString hs hraw env _).2.2.2.1, onRaw_setString hs hraw, (appends_procid hs).thenSpace, ok_bind,
    ok_bind, (stages_setString hs hraw env _).2.2.2.2, onRaw_setString hs hraw, (appends_msgid hs).thenSpace,
    ok_bind, ok_bind, onRaw_setString hs hraw, syslogAddStructuredData_eq, sdOf_setString hs hraw]
  rw [bind_assoc, bind_assoc]
  congr 1; funext sd
  rw [ok_bind, ok_bind, onRaw_setString hs hraw, appends_message, ok_bind]
  simp only [appendCut_appendCut, ietfHeader, append_assoc, cons_append, nil_append]

end Frame

end Nxlog.L3
