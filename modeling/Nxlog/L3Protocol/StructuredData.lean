import Nxlog.L3Protocol.SyslogBsd

/-!
# Structured data (`syslog.c:787-966`)

* `paramValue_escaped`, `syslogParseSdParams_text`: a value is read back, and then the parameters,
  whatever follows the bracket.
* `syslogParseStructuredData_element`: an element with parameters is read over.
* `structured_data_read_iff`: the elements in front of a message are read over and their parameters
  set exactly if each element has one. The byte behind a name is skipped, and behind a name alone
  that is the closing bracket: what follows it is read as a parameter (`bare_element_not_read`).
-/
namespace Nxlog.L3
open L1 L2 Res List

variable {p : CStr × Bytes} {c : UInt8}

/-! ## Parameters -/

/-- The bytes of a value that get a backslash. -/
def sdEscape (c : UInt8) : EscAct := if c = 92 ∨ c = 34 ∨ c = 93 then .pair 92 c else .keep

theorem sdEscape_pair (h : c = 92 ∨ c = 34 ∨ c = 93) : escaped sdEscape [c] = [92, c] :=
  escaped_pair (if_pos h)

theorem sdEscape_keep (h : ¬ (c = 92 ∨ c = 34 ∨ c = 93)) : escaped sdEscape [c] = [c] := by
  apply escaped_same
  rintro ⟨a, b, hab⟩
  rw [sdEscape, if_neg h] at hab
  cases hab

def paramText (p : CStr × Bytes) : Bytes := p.1.1 ++ 61 :: 34 :: (escaped sdEscape p.2 ++ [34])

def paramsText (ps : List (CStr × Bytes)) : Bytes := ps.flatMap fun p => 32 :: paramText p

structure SdPair (p : CStr × Bytes) : Prop where
  nonempty : p.1.1 ≠ []
  short : p.1.1.length ≤ 79
  chars : ∀ c ∈ p.1.1, isHostchar c = true
  value : p.2.length < 65536
  nul : (0 : UInt8) ∉ p.2

theorem paramValue_escaped (v done rest : Bytes) (h0 : 0 ∉ v) (hlen : (done ++ v).length < 65536) :
    paramValue done (escaped sdEscape v ++ 34 :: rest) = some (done ++ v, 34 :: rest) := by
  induction v generalizing done rest with
  | nil => cases rest <;> simp [paramValue]
  | cons c v ih =>
    have hc : c ≠ 0 := fun h => h0 (h ▸ mem_cons_self)
    have hv : 0 ∉ v := fun h => h0 (mem_cons_of_mem _ h)
    have hlen' : (done ++ [c] ++ v).length < 65536 := by simpa using hlen
    have hshort : ¬ 65536 ≤ (done ++ [c]).length := by
      rw [length_append] at hlen'
      omega
    have hstep := ih (done ++ [c]) rest hv hlen'
    rw [append_assoc, singleton_append] at hstep
    rw [escaped_cons, append_assoc]
    by_cases hsp : c = 92 ∨ c = 34 ∨ c = 93
    · rw [sdEscape_pair hsp, cons_append, singleton_append, paramValue, if_neg (by decide),
        if_pos rfl, if_pos hsp, if_neg hshort, hstep]
    rw [sdEscape_keep hsp, singleton_append]
    -- the byte behind it is there, it may be the quote
    obtain ⟨d, p, hdp⟩ : ∃ d p, escaped sdEscape v ++ 34 :: rest = d :: p :=
      exists_cons_of_ne_nil (by simp)
    rw [hdp] at hstep ⊢
    have h92 : c ≠ 92 := fun h => hsp (.inl h)
    have h34 : c ≠ 34 := fun h => hsp (.inr (.inl h))
    rw [paramValue, if_neg hc, if_neg h92, if_neg h34, if_neg hshort, hstep]

abbrev EndsName (c : UInt8) : Prop := c = 0 ∨ c = 61 ∨ c = 32 ∨ c = 34 ∨ c = 93

theorem not_endsName (h : isHostchar c = true) : ¬ EndsName c := by
  rintro (rfl | rfl | rfl | rfl | rfl)
  all_goals exact absurd h (by decide)

variable {d : UInt8}

theorem paramName_word (k : Bytes) (i : Nat) (rest : Bytes) (hk : ∀ c ∈ k, ¬ EndsName c)
    (hd : EndsName d) (hlen : i + k.length ≤ 79) :
    paramName i (k ++ d :: rest) = (k.map fun c => if isHostchar c then c else 95, d :: rest) := by
  induction k generalizing i with
  | nil => rw [nil_append, paramName, if_pos (.inr hd), map_nil]
  | cons c k ih =>
    rw [length_cons] at hlen
    have hstop : ¬ (79 ≤ i ∨ EndsName c) := not_or.mpr ⟨by omega, hk c mem_cons_self⟩
    rw [cons_append, paramName, if_neg hstop, ih (i + 1) (forall_mem_cons.mp hk).2
      (by omega), map_cons]

def ledAssignments (lead : Bytes) (ps : List (CStr × Bytes)) : List (CStr × NxValue) :=
  ps.map fun p => (cut (lead ++ p.1.1), strValue p.2)

section Params

variable {σ : Type} (acc : Access σ) (lead : Bytes)

theorem skipSpace_of_ne {p : Bytes} (h : ch p 0 ≠ 32) : skipSpace p = p := by
  cases p with
  | nil => rfl
  | cons c p => rw [skipSpace, dropWhile_cons_of_neg (by simpa using h)]

@[simp] theorem skipSpace_space (p : Bytes) : skipSpace (32 :: p) = skipSpace p := by simp [skipSpace]

/-- A parameter starts with a letter of its name. -/
theorem ch_paramText (hp : SdPair p) (rest : Bytes) : isHostchar (ch (paramText p ++ rest) 0) = true := by
  obtain ⟨c, k, hk⟩ := exists_cons_of_ne_nil hp.nonempty
  have hch : ch (paramText p ++ rest) 0 = c := by rw [paramText, hk]; rfl
  rw [hch]
  exact hp.chars c (by rw [hk]; exact mem_cons_self)

/-- One round of the loop: a parameter behind a space. -/
theorem syslogParseSdParams_param (hp : SdPair p) (hlead : lead.length + p.1.1.length ≤ 79)
    (fuel : Nat) (s : σ) (rest : Bytes) :
    syslogParseSdParams acc lead (fuel + 1) s (32 :: (paramText p ++ rest)) =
      acc.set s (cut (lead ++ p.1.1)) (strValue p.2) >>= fun s =>
      syslogParseSdParams acc lead fuel s rest := by
  have hch := not_endsName (ch_paramText hp rest)
  simp only [EndsName, not_or] at hch
  have htext : paramText p ++ rest = p.1.1 ++ 61 :: 34 :: (escaped sdEscape p.2 ++ 34 :: rest) := by
    simp [paramText]
  have hname := paramName_word p.1.1 lead.length (34 :: (escaped sdEscape p.2 ++ 34 :: rest))
    (fun c hc => not_endsName (hp.chars c hc)) (.inr (.inl rfl)) hlead
  have hkey : (p.1.1.map fun c => if isHostchar c then c else 95) = p.1.1 :=
    (map_congr_left fun c hc => if_pos (hp.chars c hc)).trans (map_id' _)
  have hvalue := paramValue_escaped p.2 [] rest hp.nul (by simpa using hp.value)
  rw [hkey] at hname
  rw [syslogParseSdParams, ch_zero, if_neg (by decide), skipSpace_space, skipSpace_of_ne hch.2.2.1]
  dsimp only
  rw [if_neg hch.2.2.2.2, htext, hname]
  rw [if_pos ⟨rfl, rfl⟩, drop_succ_cons, drop_succ_cons, drop_zero, hvalue]
  rfl

theorem syslogParseSdParams_text (rest : Bytes) (ps : List (CStr × Bytes)) (fuel : Nat) (s : σ)
    (hfuel : ps.length < fuel) (hps : ∀ p ∈ ps, SdPair p ∧ lead.length + p.1.1.length ≤ 79) :
    syslogParseSdParams acc lead fuel s (paramsText ps ++ 93 :: rest) =
      setAll acc.set s (ledAssignments lead ps) >>= fun s => .ok (s, some (93 :: rest)) := by
  induction ps generalizing fuel s with
  | nil =>
    obtain ⟨fuel, rfl⟩ : ∃ n, fuel = n + 1 := ⟨fuel - 1, by simp at hfuel; omega⟩
    rw [syslogParseSdParams]
    simp [paramsText, skipSpace, ledAssignments]
  | cons p ps ih =>
    obtain ⟨fuel, rfl⟩ : ∃ n, fuel = n + 1 := ⟨fuel - 1, by omega⟩
    obtain ⟨hp, hps⟩ := forall_mem_cons.mp hps
    have htext : paramsText (p :: ps) ++
      93 :: rest = 32 :: (paramText p ++ (paramsText ps ++ 93 :: rest)) := by
      simp [paramsText]
    rw [htext, syslogParseSdParams_param acc lead hp.1 hp.2, ledAssignments, map_cons, setAll_cons, bind_assoc]
    congr 1; funext s
    exact ih fuel s (by simpa using hfuel) hps

theorem syslogParseSdParams_space {ptr : Bytes} (h : ch ptr 0 ≠ 0) (fuel : Nat) (s : σ) :
    syslogParseSdParams acc lead fuel s (32 :: ptr) = syslogParseSdParams acc lead fuel s ptr := by
  cases fuel <;> simp [syslogParseSdParams, h]

theorem length_le_paramsText (ps : List (CStr × Bytes)) : ps.length ≤ (paramsText ps).length := by
  induction ps with
  | nil => simp
  | cons p ps ih => grind [paramsText]

end Params

/-! ## Elements -/

/-- An SD-ELEMENT; the enterprise number is behind an at mark. -/
structure SdElement where
  name : Bytes
  enterprise : Option Bytes
  params : List (CStr × Bytes)

namespace SdElement

def id (e : SdElement) : Bytes := e.name ++ (e.enterprise.map (64 :: ·)).getD []

def text (e : SdElement) : Bytes := 91 :: (e.id ++ (paramsText e.params ++ [93]))

def lead (e : SdElement) : Bytes := if e.name = ascii "NXLOG" then [] else e.name ++ [46]

def assignments (e : SdElement) : List (CStr × NxValue) := ledAssignments e.lead e.params

structure Ok (e : SdElement) : Prop where
  nonempty : e.name ≠ []
  chars : ∀ c ∈ e.name ++ e.enterprise.getD [], isHostchar c = true
  short : e.id.length ≤ 38
  params : ∀ p ∈ e.params, SdPair p ∧ e.lead.length + p.1.1.length ≤ 79

end SdElement

theorem sdName_word (w buf : Bytes) (len : Nat) (rest : Bytes) (hw : ∀ c ∈ w, isHostchar c = true)
    (hlen : buf.length + w.length ≤ 38) : sdName buf len (w ++ rest) = sdName (buf ++ w) len rest := by
  induction w generalizing buf with
  | nil => rw [append_nil, nil_append]
  | cons c w ih =>
    obtain ⟨hc, hw⟩ := forall_mem_cons.mp hw
    have hstop := not_endsName hc
    have hat : c ≠ 64 := by rintro rfl; exact absurd hc (by decide)
    have hnext := ih (buf ++ [c]) hw (by grind)
    grind [sdName]

theorem sdName_end {buf : Bytes} (len : Nat) (hd : d = 32 ∨ d = 93) (rest : Bytes) (hlen : buf.length ≤ 38) :
    sdName buf len (d :: rest) = (buf, if len = 0 then buf.length else len, d :: rest) := by
  grind [sdName]

/-- The name of an element, in front of a space or of its closing bracket. -/
theorem sdName_id {e : SdElement} (he : e.Ok) (hd : d = 32 ∨ d = 93) (rest : Bytes) :
    sdName [] 0 (e.id ++ d :: rest) = (e.name ++ (e.enterprise.map (0 :: ·)).getD [], e.name.length,
      d :: rest) := by
  have hshort := he.short
  have hpos := length_pos_iff.mpr he.nonempty
  obtain ⟨hname, hent⟩ := forall_mem_append.mp he.chars
  rw [SdElement.id, length_append] at hshort
  rw [SdElement.id, append_assoc, sdName_word e.name [] 0 _ hname (by simp; omega), nil_append]
  cases h : e.enterprise with
  | none => grind [sdName_end]
  | some x =>
    have hword := sdName_word x (e.name ++ [0]) e.name.length (d :: rest) (by grind) (by grind)
    grind [sdName, sdName_end]

theorem lead_eq {e : SdElement} (he : e.Ok) :
    (if cut (e.name ++ (e.enterprise.map (0 :: ·)).getD []) = lit "NXLOG" ∨ e.name.length = 0 then []
      else (e.name ++ (e.enterprise.map (0 :: ·)).getD []).take e.name.length ++ [46]) = e.lead := by
  have h0 : 0 ∉ e.name := fun h => absurd (he.chars 0 (mem_append_left _ h)) (by decide)
  have hpos := length_pos_iff.mpr he.nonempty
  have hcut : cut (e.name ++ (e.enterprise.map (0 :: ·)).getD []) = ⟨e.name, h0⟩ := by
    cases e.enterprise with
    | none => simpa using cut_cstr ⟨e.name, h0⟩
    | some x => exact cut_append_zero ⟨e.name, h0⟩ x
  have hlit : lit "NXLOG" = ⟨ascii "NXLOG", by decide⟩ := by decide
  simp only [take_left, SdElement.lead, hcut, hlit, Subtype.mk.injEq, or_iff_left (Nat.ne_of_gt hpos)]

section Elements

variable {σ : Type} (acc : Access σ) (string : Bytes) {e : SdElement}

/-- What is done behind the parameters of an element. -/
def closeElement (fuel : Nat) (r : σ × Option Bytes) : Res (σ × Bytes) :=
  match r.2 with
  | none => .ok (r.1, string)
  | some q =>
    if ch (skipSpace q) 0 = 93 then syslogParseStructuredData acc string fuel r.1 (skipSpace q).tail
    else .ok (r.1, string)

/-- The byte behind the name is skipped. -/
theorem syslogParseStructuredData_id (he : e.Ok) (hd : d = 32 ∨ d = 93) (fuel : Nat) (s : σ)
    (t : Bytes) : syslogParseStructuredData acc string (fuel + 1) s (91 :: (e.id ++ d :: t)) =
      syslogParseSdParams acc e.lead (t.length + 2) s t >>= closeElement acc string fuel := by
  have hskip : skipSpace (e.id ++ d :: t) = e.id ++ d :: t := by
    obtain ⟨c, w, hname⟩ := exists_cons_of_ne_nil he.nonempty
    have hc := not_endsName (he.chars c (by simp [hname]))
    refine skipSpace_of_ne fun h => hc (.inr (.inr (.inl ?_)))
    rwa [SdElement.id, hname] at h
  have hd0 : d ≠ 0 := by rcases hd with rfl | rfl <;> decide
  rw [syslogParseStructuredData, ch_zero, if_neg (by decide), skipSpace_of_ne (by rw [ch_zero]; decide)]
  dsimp only
  rw [ch_zero, if_neg (by decide), tail_cons, hskip, sdName_id he hd]
  dsimp only
  rw [ch_zero, if_neg hd0, lead_eq he]
  rfl

/-- An element with parameters is read over, and then what follows it. -/
theorem syslogParseStructuredData_element (he : e.Ok) (hne : e.params ≠ []) (rest : Bytes)
    (fuel : Nat) (s : σ) :
    syslogParseStructuredData acc string (fuel + 1) s (e.text ++ rest) =
      setAll acc.set s e.assignments >>= fun s => syslogParseStructuredData acc string fuel s rest := by
  have hlen := length_le_paramsText e.params
  obtain ⟨p, ps, hps⟩ := exists_cons_of_ne_nil hne
  obtain ⟨t, ht⟩ : ∃ t, paramsText e.params ++ 93 :: rest = 32 :: (paramText p ++ t) :=
    ⟨paramsText ps ++ 93 :: rest, by simp [hps, paramsText]⟩
  have htext : e.text ++ rest = 91 :: (e.id ++ 32 :: (paramText p ++ t)) := by simp [SdElement.text, ← ht]
  have hfuel : e.params.length < (paramText p ++ t).length + 2 := by
    have := congrArg length ht
    grind
  have hch := not_endsName (ch_paramText (he.params p (by simp [hps])).1 t)
  rw [htext, syslogParseStructuredData_id acc string he (.inl rfl),
    ← syslogParseSdParams_space acc _ fun h => hch (.inl h),
    ← ht, syslogParseSdParams_text acc _ rest _ _ s hfuel he.params, bind_assoc]
  rfl

variable {es : List SdElement}

theorem syslogParseStructuredData_elements (hes : ∀ e ∈ es, e.Ok ∧ e.params ≠ []) (rest : Bytes)
    (fuel : Nat) (s : σ) :
    syslogParseStructuredData acc string (es.length + fuel) s (es.flatMap SdElement.text ++ rest) =
      setAll acc.set s (es.flatMap SdElement.assignments) >>= fun s =>
        syslogParseStructuredData acc string fuel s rest := by
  induction es generalizing s with
  | nil => simp
  | cons e es ih =>
    obtain ⟨⟨he, hne⟩, hes⟩ := forall_mem_cons.mp hes
    rw [flatMap_cons, flatMap_cons, append_assoc, length_cons, Nat.add_right_comm,
      syslogParseStructuredData_element acc string he hne, setAll_append, bind_assoc]
    congr 1; funext s
    exact ih hes s

/-! ## What is left of the text -/

theorem length_skipSpace_le (p : Bytes) : (skipSpace p).length ≤ p.length := length_dropWhile_le _ _

theorem length_paramName_le (i : Nat) (p : Bytes) : (paramName i p).2.length ≤ p.length := by
  fun_induction paramName i p <;> grind

theorem length_paramValue_le {v p w q : Bytes} (h : paramValue v p = some (w, q)) : q.length ≤ p.length := by
  fun_induction paramValue v p <;> grind

theorem length_sdName_le (buf : Bytes) (len : Nat) (p : Bytes) : (sdName buf len p).2.2.length ≤ p.length := by
  fun_induction sdName buf len p <;> grind

theorem syslogParseSdParams_left (lead : Bytes) (fuel : Nat) (s : σ) (ptr : Bytes) :
    Post (fun r => ∀ q ∈ r.2, q.length ≤ (skipSpace ptr).length)
    (syslogParseSdParams acc lead fuel s ptr) := by
  induction fuel generalizing s ptr with
  | zero => exact .error _
  | succ fuel ih =>
    have hname := length_paramName_le lead.length (skipSpace ptr)
    rw [syslogParseSdParams]
    refine .ite (fun h0 => ?_) fun _ => .ite (fun _ => .ok (by simp)) fun _ =>
      .ite (fun _ => ?_) fun _ => .ok (by simp)
    · rw [skipSpace_of_ne (by rw [h0]; decide)]
      exact .ok (by simp)
    split
    · exact .ok (by simp)
    · next w q hvalue =>
      have hle := length_paramValue_le hvalue
      have hskip := length_skipSpace_le q.tail
      exact .any fun s => (ih s q.tail).mono (by grind)

theorem closeElement_left (fuel n : Nat) (r : σ × Option Bytes) (hr : ∀ q ∈ r.2, q.length ≤ n)
    (hnext : ∀ s ptr, Post (fun r => r.2 = string ∨ r.2.length ≤ ptr.length)
      (syslogParseStructuredData acc string fuel s ptr)) :
    Post (fun r => r.2 = string ∨ r.2.length < n) (closeElement acc string fuel r) := by
  unfold closeElement
  split
  · exact .ok (.inl rfl)
  next q hq =>
  have hlen := hr q hq
  have hskip := length_skipSpace_le q
  refine .ite (fun h93 => (hnext _ _).mono fun r' hr' => hr'.imp_right fun hle => ?_) fun _ => .ok (.inl rfl)
  cases hcons : skipSpace q with
  | nil => simp [hcons] at h93
  | cons c p => grind

theorem syslogParseStructuredData_left (fuel : Nat) (s : σ) (ptr : Bytes) :
    Post (fun r => r.2 = string ∨ r.2.length ≤ ptr.length)
    (syslogParseStructuredData acc string fuel s ptr) := by
  induction fuel generalizing s ptr with
  | zero => exact .error _
  | succ fuel ih =>
    have hskip := length_skipSpace_le ptr
    have htail := length_skipSpace_le (skipSpace ptr).tail
    have hname := length_sdName_le [] 0 (skipSpace (skipSpace ptr).tail)
    rw [syslogParseStructuredData]
    refine .ite (fun _ => .ok (.inr (Nat.le_refl _))) fun _ => .ite (fun _ => .ok (.inr hskip)) fun _ =>
      .ite (fun _ => .ok (.inl rfl)) fun _ => .bind (syslogParseSdParams_left acc _ _ _ _) fun r hr => ?_
    have hp := length_skipSpace_le (sdName [] 0 (skipSpace (skipSpace ptr).tail)).2.2.tail
    exact (closeElement_left acc string fuel _ r hr ih).mono (by grind)

/-- An element is no parameter. -/
theorem syslogParseSdParams_element {lead : Bytes} (hlead : lead.length ≤ 39) (he : e.Ok)
    (rest : Bytes) (fuel : Nat)
    (s : σ) : syslogParseSdParams acc lead (fuel + 1) s (e.text ++ rest) = .ok (s, none) := by
  obtain ⟨d, t, hd, htext⟩ : ∃ d t, (d = 32 ∨ d = 93) ∧ e.text ++ rest = (91 :: e.id) ++ d :: t := by
    cases hps : e.params <;> simp [SdElement.text, paramsText, hps]
  have hchars : ∀ c ∈ 91 :: e.id, ¬ EndsName c := by
    have hhost : ∀ c ∈ e.name ++ e.enterprise.getD [], ¬ EndsName c := fun c hc => not_endsName (he.chars c hc)
    cases h : e.enterprise <;> grind [SdElement.id]
  have hends : EndsName d ∧ d ≠ 61 := by rcases hd with rfl | rfl <;> decide
  have hword := paramName_word (91 :: e.id) lead.length t hchars hends.1
    (by rw [length_cons]; have := he.short; omega)
  rw [htext, syslogParseSdParams, cons_append, ch_zero, if_neg (by decide),
    skipSpace_of_ne (by rw [ch_zero]; decide)]
  dsimp only
  rw [ch_zero, if_neg (by decide), ← cons_append, hword]
  exact if_neg fun h => hends.2 h.1

/-- The message is found only behind elements with parameters. -/
theorem syslogParseStructuredData_params {msg : Bytes} (hes : ∀ e ∈ es, e.Ok)
    (hstring : msg.length < string.length) (fuel : Nat) (s : σ) :
    Post (fun r => r.2 = msg → ∀ e ∈ es, e.params ≠ [])
      (syslogParseStructuredData acc string fuel s (es.flatMap SdElement.text ++ 32 :: msg)) := by
  induction es generalizing fuel s with
  | nil => exact fun _ _ _ => by simp
  | cons e es ih =>
    obtain ⟨he, hes⟩ := forall_mem_cons.mp hes
    cases fuel with
    | zero => exact .error _
    | succ fuel =>
      rw [flatMap_cons, append_assoc]
      by_cases hne : e.params = []
      · have htext : ∀ rest, e.text ++ rest = 91 :: (e.id ++ 93 :: rest) := by
          simp [SdElement.text, hne, paramsText]
        rw [htext, syslogParseStructuredData_id acc string he (.inr rfl)]
        cases es with
        | nil =>
          refine .bind (syslogParseSdParams_left acc _ _ _ _) fun r hr => ?_
          refine (closeElement_left acc string fuel _ r hr
            (syslogParseStructuredData_left acc string fuel)).mono ?_
          have := length_skipSpace_le msg
          grind [skipSpace_space]
        | cons e' es =>
          have hlead : e.lead.length ≤ 39 := by
            have := he.short
            grind [SdElement.id, SdElement.lead]
          rw [flatMap_cons, append_assoc, syslogParseSdParams_element acc hlead (hes e' mem_cons_self)]
          exact .ok (by grind)
      · rw [syslogParseStructuredData_element acc string he hne]
        exact .any fun s => (ih hes fuel s).mono fun r hr h => forall_mem_cons.mpr ⟨hne, hr h⟩

end Elements

/-- Elements in front of a message: the pointer to the message is returned and the parameters are
set exactly if every element has a parameter. -/
theorem structured_data_read_iff (s : Store) (es : List SdElement) (msg : Bytes) (hs : Usable s.ld)
    (hes : ∀ e ∈ es, e.Ok) (hnames : (es.flatMap SdElement.assignments).Pairwise fun a b =>
      ¬ strcasecmp a.1 b.1)
    (hraw : ∀ a ∈ es.flatMap SdElement.assignments, a.1 ≠ rawEvent) (hmsg : ch msg 0 ≠ 32 ∧
    ch msg 0 ≠ 91) (text : Bytes) (htext : text = es.flatMap SdElement.text ++ 32 :: msg) :
    (∃ s', syslogParseStructuredData storeAccess text (text.length + 1) s text = .ok (s', msg) ∧
      Assigned s.ld (es.flatMap SdElement.assignments) s'.ld) ↔ ∀ e ∈ es, e.params ≠ [] := by
  have hshort : msg.length < text.length := by simp [htext]; omega
  constructor
  · rintro ⟨s', hparse, -⟩
    have hpost := syslogParseStructuredData_params storeAccess text hes hshort (text.length + 1) s
    rw [← htext] at hpost
    exact hpost _ hparse rfl
  · intro hne
    obtain ⟨s', hset, hassigned⟩ := setAll_store hs hnames fun a ha => ⟨hraw a ha, by
      obtain ⟨e, -, hmem⟩ := mem_flatMap.mp ha
      obtain ⟨p, -, rfl⟩ := mem_map.mp hmem
      rfl⟩
    have hcount : es.length ≤ (es.flatMap SdElement.text).length := by
      clear * -
      induction es with
      | nil => simp
      | cons e es ih => grind [SdElement.text]
    obtain ⟨fuel, hfuel⟩ : ∃ fuel, text.length + 1 = es.length + (fuel + 1) :=
      ⟨text.length - es.length, by grind⟩
    have hrun := syslogParseStructuredData_elements storeAccess text (fun e he =>
      ⟨hes e he, hne e he⟩) (32 :: msg)
      (fuel + 1) s
    rw [← htext, ← hfuel] at hrun
    refine ⟨s', ?_, hassigned⟩
    rw [hrun, storeAccess, hset]
    simp [syslogParseStructuredData, skipSpace_of_ne hmsg.1, hmsg.2]

/-- `[a@1 b="c"] m`. -/
theorem structured_data_read_parameter :
    ∃ s', syslogParseStructuredData storeAccess (ascii "[a@1 b=\"c\"] m") 14 ⟨logdataNew, 1⟩
      (ascii "[a@1 b=\"c\"] m") = .ok (s', ascii "m") ∧
      Assigned logdataNew [(lit "a.b", strValue (ascii "c"))] s'.ld := by
  have husable : Usable logdataNew := ⟨pairwise_singleton _ _, by rintro f hf; cases mem_singleton.mp hf; rfl⟩
  have hpair : SdPair (lit "b", ascii "c") := by constructor <;> decide +kernel
  exact (structured_data_read_iff ⟨logdataNew, 1⟩
    [⟨ascii "a", some (ascii "1"), [(lit "b", ascii "c")]⟩] (ascii "m")
    husable (by simpa using ⟨by decide, by decide +kernel, by decide,
      by simpa using ⟨hpair, by decide⟩⟩) (by decide) (by decide)
    (by decide) _ rfl).mpr (by decide)

/-- `[a] m` is not read over: the pointer that is returned is the one that was given. -/
theorem bare_element_not_read :
    syslogParseStructuredData storeAccess (ascii "[a] m") 6 ⟨logdataNew, 1⟩ (ascii "[a] m") =
      .ok (⟨logdataNew, 1⟩, ascii "[a] m") := by
  decide

end Nxlog.L3
