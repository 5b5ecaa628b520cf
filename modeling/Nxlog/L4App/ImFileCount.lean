import Nxlog.Core.History
import Nxlog.L4App.ImFileLinks

/-!
# Line numbers of `im_file`

A record is numbered with the counter of its file, which is kept over a close and, in the config
cache, over a stop. When a file is found to be another one (its inode has changed) or to be shorter
than what was read of it, the number in the cache is set to zero, but the counter is not: the
records of the new file go on where those of the old one ended. When a file is gone and this is
noticed while opening it, the number stays in the cache, and the next file of this name goes on with
it.

* `ordinal`: the records since the file was last found to be another one.
* `Numbers`: the counters of the files in the hash, and the saved numbers of the others, are the
  ordinals.
* `StepOk`: what must not happen to a file with numbered records.
* `line_numbers`: in every run in which it does not, every record is numbered with its ordinal.
-/
namespace Nxlog.L4.ImFile
open L1 L2 L3 Res List

variable {ι : Type}

/-! ## Ordinals -/

def Note.count (name : Name) (k : Nat) : Note → Nat
  | .record n _ _ => if n = name then k + 1 else k
  | .rotated n => if n = name then 0 else k
  | .truncated n => if n = name then 0 else k
  | .deleted n => if n = name then 0 else k
  | .forgotten n => if n = name then 0 else k

/-- How many records were delivered of a file since it was found to be rotated, truncated or
deleted, or let go with nothing saved of it. -/
def ordinal (name : Name) (out : List Note) : Nat := out.foldl (fun k x => x.count name k) 0

def Numbered (logdata : Logdata) (number : Int64) : Prop :=
  view logdata lineNumberKey = some ⟨TRUE, .integer number⟩

/-- The field LineNumber of every record has the number that comes next for its file. -/
def LineNumbers (out : List Note) : Prop :=
  ∀ (before : List Note) (name : Name) (number : Int64) (logdata : Logdata) (after : List Note),
    out = before ++ .record name number logdata :: after →
      Numbered logdata number ∧ number.toInt = ordinal name before + 1

theorem ordinal_snoc (name : Name) (out : List Note) (x : Note) :
    ordinal name (out ++ [x]) = x.count name (ordinal name out) := by
  simp [ordinal]

/-- Notes about other files do not count. -/
theorem ordinal_others {name : Name} {notes : List Note} (h : ∀ x ∈ notes, x.name ≠ name)
    (out : List Note) : ordinal name (out ++ notes) = ordinal name out := by
  induction notes generalizing out with
  | nil => rw [append_nil]
  | cons x notes ih =>
    have hx : x.count name (ordinal name out) = ordinal name out := by
      have hname := h x mem_cons_self
      cases x <;> exact if_neg hname
    rw [append_cons, ih (forall_mem_cons.mp h).2, ordinal_snoc, hx]

variable {x : Note}

theorem lineNumbers_snoc {out : List Note} (h : LineNumbers out)
    (hx : ∀ name number logdata, x = .record name number logdata →
      Numbered logdata number ∧ number.toInt = ordinal name out + 1) : LineNumbers (out ++ [x]) := by
  intro before name number logdata after hout
  rcases split_snoc hout with ⟨rfl, hx', -⟩ | ⟨after', hout, -⟩
  · exact hx name number logdata hx'
  · exact h before name number logdata after' hout

theorem lineNumbers_reset {out : List Note} {name : Name} (h : LineNumbers out)
    (hx : ∀ k, x.count name k = 0) : LineNumbers (out ++ [x]) := by
  refine lineNumbers_snoc h fun n number logdata hrec => ?_
  have hone := hx 1
  rw [hrec, Note.count] at hone
  split at hone <;> cases hone

theorem nextLineNumber_toInt {n m : Int64} (hn : 0 ≤ n.toInt) (h : nextLineNumber n = .ok m) :
    m.toInt = n.toInt + 1 := by
  have hcond := BitVec.toInt_eq_toNat_cond n.toBitVec
  have hsmall : ¬ (0 : UInt64) - 64 ≤ n.toUInt64 := by
    have hlim : ((0 : UInt64) - 64).toNat = 18446744073709551552 := by decide
    have hnat : n.toUInt64.toNat = n.toBitVec.toNat := rfl
    have hint : n.toInt = n.toBitVec.toInt := rfl
    rw [UInt64.le_iff_toNat_le, hlim, hnat]
    split at hcond <;> omega
  simp only [nextLineNumber, if_neg hsmall] at h
  split at h
  · cases h
  next hmax =>
  cases h
  have hne : n.toInt ≠ 2 ^ 63 - 1 := fun heq => hmax (Int64.toInt_inj.mp (heq.trans Int64.toInt_maxValue.symm))
  have hlt := Int64.toInt_lt n
  rw [Int64.toInt_add]
  exact Int.bmod_eq_of_le (by simp; omega) (by simp; omega)

/-- The counter of the file is its ordinal, and so was every number so far. -/
def Counts (name : Name) (s : State ι) : Prop :=
  (s.file name).current_line_number.toInt = ordinal name s.out ∧ LineNumbers s.out

variable {f : FileInput ι}

section OneFile

variable (conf : Conf ι) {name : Name} {s : State ι}

theorem setFile_counts (h : Counts name s)
    (hf : f.current_line_number = (s.file name).current_line_number) : Counts name (s.setFile name f) := by
  refine ⟨?_, h.2⟩
  simpa [State.setFile, hf] using h.1

theorem deliver_counts {logdata : Logdata} {s' : State ι} (h : Counts name s)
    (hs' : deliver name logdata s = .ok s') :
    Counts name s' := by
  obtain ⟨number, logdata', hnumber, hset, rfl⟩ := deliver_eq hs'
  have hfield : Numbered logdata' number := by
    rw [Numbered, setFieldValue_view hset]
    exact if_pos (strcasecmp_refl _)
  have hnext := nextLineNumber_toInt (by rw [h.1]; omega) hnumber
  rw [h.1] at hnext
  refine ⟨?_, lineNumbers_snoc h.2 ?_⟩
  · simp only [State.note, State.setFile, if_true]
    rw [ordinal_snoc, hnext]
    simp [Note.count]
  · intro n k ld hx
    cases hx
    exact ⟨hfield, hnext⟩

theorem Edits.counts {s' : State ι} (he : Edits name s s') (h : Counts name s) : Counts name s' := by
  induction he with
  | refl => exact h
  | file _ _ hcount ih => exact setFile_counts ih hcount
  | deliver _ hs2 ih => exact deliver_counts ih hs2

theorem inputClose_counts (h : Counts name s) : Post (Counts name) (inputClose conf name s) := by
  intro s' hs'
  obtain ⟨s1, h1, hcase⟩ := inputClose_cases hs'
  have hflush : Counts name s1 := (flushInput_edits conf name _ _ h1).counts h
  rcases hcase with ⟨-, rfl⟩ | ⟨o, -, rfl⟩
  · exact hflush
  · exact setFile_counts hflush rfl

end OneFile

/-! ## All files -/

section Numbers

variable (conf : Conf ι) (N : Name → Prop)

/-- The counters of the files in `L`, and the numbers that are saved of the others, are the
ordinals. -/
structure Numbers (L : List Name) (s : State ι) : Prop where
  live : ∀ n ∈ L, N n ∧ (s.file n).current_line_number.toInt = ordinal n s.out
  saved : ∀ n, N n → n ∉ L → (savedNumber conf s n).toInt = ordinal n s.out
  numbered : LineNumbers s.out

abbrev AllNumbers (s : State ι) : Prop := Numbers conf N s.files s

def Quiet (f : FileInput ι) : Prop :=
  ∀ opened flush, f.input = some opened → conf.inputfunc.flush = some flush →
    ∀ r, flush opened.input = .ok r → r.1 = none

structure Unnumbered (name : Name) (s : State ι) : Prop where
  counter : (s.file name).current_line_number = 0
  saved : savedNumber conf s name = 0
  quiet : Quiet conf (s.file name)

/-- With SavePos, what is counted for the file is saved. -/
structure Droppable (name : Name) (s : State ι) : Prop where
  saved : conf.savepos = true → savedNumber conf s name = (s.file name).current_line_number
  quiet : conf.savepos = true → Quiet conf (s.file name)

/-- No key of a line number is the name of a file. -/
def NoClash (N : Name → Prop) : Prop := ∀ n m, N n → N m → m ≠ countKey n

variable {conf N} {L : List Name} {name : Name} {s s' : State ι}

variable (h : Numbers conf N L s)
include h

theorem Numbers.counts (hname : name ∈ L) : Counts name s := ⟨(h.live name hname).2, h.numbered⟩

theorem Numbers.only (ho : Only name s s') (hname : name ∈ L) (hc : Counts name s') : Numbers conf N L s' := by
  obtain ⟨notes, hout, hnotes⟩ := ho.notes
  have hother : ∀ n, n ≠ name → ordinal n s'.out = ordinal n s.out := fun n hn => by
    rw [hout]
    exact ordinal_others (fun x hx heq => hn (heq.symm.trans (hnotes x hx))) s.out
  refine ⟨fun n hn => ?_, fun n hN hn => ?_, hc.2⟩
  · by_cases heq : n = name
    · subst heq
      exact ⟨(h.live n hn).1, hc.1⟩
    · rw [ho.others n heq, hother n heq]
      exact h.live n hn
  · have hne : n ≠ name := fun heq => hn (heq ▸ hname)
    rw [hother n hne, savedNumber, ho.cache]
    exact h.saved n hN hn

theorem Numbers.edits (he : Edits name s s') (hname : name ∈ L) : Numbers conf N L s' :=
  h.only he.only hname (he.counts (h.counts hname))

/-- The file leaves `L` with its number saved. -/
theorem Numbers.leave (hsaved : (savedNumber conf s name).toInt = ordinal name s.out) :
    Numbers conf N (L.filter (· ≠ name)) s := by
  refine ⟨fun n hn => h.live n (filter_subset L name n hn), fun n hN hn => ?_, h.numbered⟩
  by_cases heq : n = name
  · rw [heq]
    exact hsaved
  · exact h.saved n hN fun hL => hn (by simp [hL, heq])

/-- A saved value of a file in `L` is not looked at, and is not a number of another one. -/
theorem Numbers.cache (hclash : NoClash N) (hname : name ∈ L)
    (cache : Name → Option Int64) (hcache : ∀ k, k ≠ name → k ≠ countKey name →
    cache k = s.cache k) : Numbers conf N L { s with cache := cache } := by
  refine ⟨h.live, fun n hN hn => ?_, h.numbered⟩
  have hne : n ≠ name := fun heq => hn (heq ▸ hname)
  have hkey : cache (countKey n) = s.cache (countKey n) := by
    refine hcache _ (fun heq => hclash n name hN (h.live name hname).1 heq.symm) fun heq => ?_
    exact hne (append_cancel_right heq)
  have hsaved := h.saved n hN hn
  unfold savedNumber at hsaved ⊢
  dsimp only
  rwa [hkey]

omit h

theorem quiet_of_closed (h : f.input = none) : Quiet conf f := fun opened _ ho => by
  rw [h] at ho
  cases ho

/-- Closing a quiet file delivers nothing. -/
theorem inputClose_quiet (hquiet : Quiet conf (s.file name)) :
    Post (fun s' => Only name s s' ∧
      (s'.file name).current_line_number = (s.file name).current_line_number ∧ s'.out = s.out)
      (inputClose conf name s) := by
  intro s' hs'
  refine ⟨inputClose_only conf name s s' hs', ?_⟩
  obtain ⟨s1, h1, hcase⟩ := inputClose_cases hs'
  have hflush : (s1.file name).current_line_number = (s.file name).current_line_number ∧ s1.out = s.out := by
    unfold flushInput at h1
    split at h1
    · next opened flush hinput hfunc =>
      obtain ⟨⟨s2, b⟩, h2, h1⟩ := bind_eq_ok.mp h1
      obtain ⟨⟨r, input⟩, hr, h2⟩ := bind_eq_ok.mp h2
      obtain rfl : r = none := hquiet opened flush hinput hfunc _ hr
      cases h2
      cases h1
      exact ⟨by simp [State.setInput, State.setFile, leave], rfl⟩
    · cases h1
      exact ⟨rfl, rfl⟩
  rcases hcase with ⟨-, rfl⟩ | ⟨o, -, rfl⟩
  · exact hflush
  · exact ⟨by simpa [State.setFile] using hflush.1, hflush.2⟩

theorem inputClose_numbers (h : Numbers conf N L s) (hname : name ∈ L) :
    Post (Numbers conf N L) (inputClose conf name s) :=
  ((inputClose_only conf name s).and (inputClose_counts conf (h.counts hname))).mono fun _ h' =>
  h.only h'.1 hname h'.2

theorem inputBlacklist_numbers (h : Numbers conf N L s) (hname : name ∈ L) :
    Post (Numbers conf N L) (inputBlacklist conf name s) :=
  (inputClose_numbers h hname).bind fun _ h1 => .ok (h1.edits (.file .refl rfl rfl) hname)

theorem allNumbers_of_only {x : Res (State ι)} (ho : Post (Only name s) x)
    (hn : Post (Numbers conf N s.files) x) :
    Post (AllNumbers conf N) x :=
  (ho.and hn).mono fun s' h' => by
    rw [AllNumbers, h'.1.files]
    exact h'.2

theorem blacklist_numbers (h : AllNumbers conf N s) (hname : name ∈ s.files) :
    Post (AllNumbers conf N) (inputBlacklist conf name s) :=
  allNumbers_of_only (inputBlacklist_only conf name s) (inputBlacklist_numbers h hname)

theorem savedNumber_of_cache (h : s'.cache = s.cache) (n : Name) :
    savedNumber conf s' n = savedNumber conf s n := by
  rw [savedNumber, savedNumber, h]

/-- A file that is gone, and nothing is saved of it. -/
theorem Numbers.delete (h : Numbers conf N L s) (hnote : x.name = name) (hx : ∀ k, x.count name k = 0)
    (hsaved : savedNumber conf s name = 0) : Numbers conf N (L.filter (· ≠ name)) (s.note x) := by
  have hother : ∀ n, n ≠ name → ordinal n (s.note x).out = ordinal n s.out := fun n hn =>
    ordinal_others (by simpa [hnote] using Ne.symm hn) s.out
  refine ⟨fun n hn => ?_, fun n hN hn => ?_, lineNumbers_reset h.numbered hx⟩
  · obtain ⟨hL, hne⟩ := mem_filter.mp hn
    rw [hother n (by simpa using hne)]
    exact h.live n hL
  · by_cases heq : n = name
    · subst heq
      rw [State.note, ordinal_snoc, hx]
      exact congrArg Int64.toInt hsaved
    · rw [hother n heq]
      exact h.saved n hN fun hL => hn (by simp [hL, heq])

/-- A closed file delivers nothing. -/
theorem Numbers.quiet (h : Numbers conf N L s) (ho : Only name s s')
    (hq : (s'.file name).current_line_number = (s.file name).current_line_number ∧ s'.out = s.out) :
    Numbers conf N L s' := by
  obtain ⟨hcount, hout⟩ := hq
  refine ⟨fun n hn => ?_, fun n hN hn => ?_, hout ▸ h.numbered⟩
  · have hsame : (s'.file n).current_line_number = (s.file n).current_line_number := by
      by_cases heq : n = name
      · rw [heq]
        exact hcount
      · rw [ho.others n heq]
    rw [hsame, hout]
    exact h.live n hn
  · rw [savedNumber_of_cache ho.cache, hout]
    exact h.saved n hN hn

/-- A file is dropped with its number saved, or without SavePos. -/
theorem dropFile_numbers (h : AllNumbers conf N s) (hin : name ∈ s.files ∨ (s.file name).input = none)
    (hdrop : Droppable conf name s) : Post (AllNumbers conf N) (dropFile conf name s) := by
  have hforget : Numbers conf N s.files (s.forget name) := ⟨h.live, h.saved, h.numbered⟩
  by_cases hsave : conf.savepos = true
  · have hquiet : Quiet conf ((s.forget name).file name) := hdrop.quiet hsave
    refine (inputClose_quiet hquiet).bind fun s1 h1 => .ok ?_
    obtain ⟨honly, hcount, hout⟩ := h1
    have hkeep := hforget.quiet honly ⟨hcount, hout⟩
    rw [AllNumbers, if_pos hsave, honly.files]
    by_cases hname : name ∈ s.files
    · refine hkeep.leave ?_
      rw [savedNumber_of_cache honly.cache, hout]
      exact (congrArg Int64.toInt (hdrop.saved hsave)).trans (h.live name hname).2
    · rwa [State.forget, filter_eq_self.mpr]
      intro n hn
      have hne : n ≠ name := fun heq => hname (heq ▸ hn)
      simpa using hne
  · have hclose : Post (fun s1 => s1.files = s.files.filter (· ≠ name) ∧ Numbers conf N s.files s1)
        (inputClose conf name (s.forget name)) := by
      rcases hin with hname | hnone
      · exact ((inputClose_only conf name _).mono fun s1 h1 => h1.files).and (inputClose_numbers hforget hname)
      · have hquiet : Quiet conf ((s.forget name).file name) := quiet_of_closed hnone
        exact (inputClose_quiet hquiet).mono fun s1 h1 => ⟨h1.1.files, hforget.quiet h1.1 h1.2⟩
    refine hclose.bind fun s1 h1 => .ok ?_
    rw [if_neg hsave]
    show Numbers conf N s1.files _
    rw [h1.1]
    exact h1.2.delete rfl (fun _ => if_pos rfl) (if_neg hsave)

/-! ### Opening -/

/-- The file on the disk has all that was read of it. -/
def Whole (name : Name) (s : State ι) : Prop :=
  ∀ i, (s.disk.entry name = .inode i ∨ ∃ o, (s.file name).input = some o ∧ o.inode = i) →
    (s.file name).filepos ≤ s.disk.size i ∧ ∀ o, (s.file name).input = some o →
    (o.offset : Int) ≤ s.disk.size i

theorem updateInfo_counts {o : Opened ι} (h : Counts name s)
    (htrunc : (s.file name).filepos ≤ s.disk.size o.inode ∨ (s.file name).current_line_number = 0) :
    Counts name (updateInfo name o s) := by
  unfold updateInfo
  dsimp only
  split
  · next hshort =>
    have hzero := htrunc.resolve_left (by omega)
    refine ⟨?_, lineNumbers_snoc h.2 nofun⟩
    simp only [State.note, State.setFile, if_true, hzero]
    rw [ordinal_snoc]
    simp [Note.count]
  · exact setFile_counts h rfl

theorem statInput_numbers (opened : Bool) (h : Numbers conf N L s) (hname : name ∈ L)
    (htrunc : ∀ o, (s.file name).input = some o →
      (s.file name).filepos ≤ s.disk.size o.inode ∨ (s.file name).current_line_number = 0) :
    Post (Numbers conf N L) (statInput conf name opened s) := by
  unfold statInput
  split
  · exact .error _
  next o ho =>
  have hinfo : Numbers conf N L (updateInfo name o s) :=
    h.only (updateInfo_only name s o) hname (updateInfo_counts (h.counts hname) (htrunc o ho))
  apply Post.ite
  · exact fun _ => inputClose_numbers hinfo hname
  · exact fun _ => .ok hinfo

theorem openMissing_numbers (hclash : NoClash N) (existed : Bool)
    (h : AllNumbers conf N s) (hname : name ∈ s.files) (hinput : (s.file name).input = none)
    (hsaved : savedNumber conf s name = (s.file name).current_line_number)
    (hexisted : existed = true → (s.file name).current_line_number = 0) :
    Post (AllNumbers conf N) (openMissing conf name existed s) := by
  apply Post.ite
  · intro _
    apply Post.ite
    · exact fun _ => blacklist_numbers h hname
    intro _
    have hremove : Numbers conf N s.files ((s.forget name).cacheRemove name) := by
      have hc := h.cache hclash hname (fun k => if k = name then none else s.cache k) fun k hk _ => if_neg hk
      exact ⟨hc.live, hc.saved, hc.numbered⟩
    have hkeep : savedNumber conf ((s.forget name).cacheRemove name) name = savedNumber conf s name := by
      unfold savedNumber State.cacheRemove State.forget
      dsimp only
      rw [if_neg (ne_countKey name).symm]
    have hquiet : Quiet conf (((s.forget name).cacheRemove name).file name) := quiet_of_closed hinput
    refine ((inputClose_numbers hremove hname).and (inputClose_quiet hquiet)).bind fun s1 h1 => .ok ?_
    obtain ⟨hnum, honly, hcount, hout⟩ := h1
    have hsaved1 : savedNumber conf s1 name = (s.file name).current_line_number := by
      rw [savedNumber_of_cache honly.cache, hkeep, hsaved]
    have hfiles : s1.files = s.files.filter (· ≠ name) := honly.files
    split
    · next hex =>
      show Numbers conf N s1.files _
      rw [hfiles]
      exact hnum.delete rfl (fun _ => if_pos rfl) (hsaved1.trans (hexisted hex))
    · rw [AllNumbers, hfiles]
      refine hnum.leave ?_
      rw [hsaved1, ← (hnum.live name hname).2, hcount]
      rfl
  · exact fun _ => blacklist_numbers h hname

theorem inputOpen_numbers (hclash : NoClash N) (readfromlast existed : Bool)
    (h : AllNumbers conf N s) (hname : name ∈ s.files)
    (htrunc : Whole name s ∨ (s.file name).current_line_number = 0)
    (hmissing : s.disk.entry name = .missing → (s.file name).input = none →
      savedNumber conf s name = (s.file name).current_line_number ∧
        (existed = true → (s.file name).current_line_number = 0)) :
    Post (AllNumbers conf N) (inputOpen conf name readfromlast existed s) := by
  apply Post.ite
  · exact fun _ => .ok h
  intro _
  split
  · next o ho =>
    refine allNumbers_of_only (statInput_only conf name s false)
      (statInput_numbers false h hname fun o1 ho1 => ?_)
    exact htrunc.imp (fun hw => (hw o1.inode (.inr ⟨o1, ho1, rfl⟩)).1) id
  · next hnone =>
    split
    · next hentry =>
      obtain ⟨hsaved, hexisted⟩ := hmissing hentry hnone
      exact openMissing_numbers hclash existed h hname hnone hsaved hexisted
    · exact blacklist_numbers h hname
    · next i hentry =>
      refine Post.ite (fun _ => ?_) fun _ => blacklist_numbers h hname
      have honly := openFile_only conf name s readfromlast i
      have hfile := openFile_file conf name s readfromlast i
      have hcounts : Counts name (openFile conf name readfromlast i s) := by
        rw [Counts, hfile]
        exact h.counts hname
      refine allNumbers_of_only ((statInput_only conf name _ true).mono fun s2 h2 => honly.trans h2) ?_
      refine statInput_numbers true (h.only honly hname hcounts) hname fun o ho => ?_
      rw [hfile] at ho ⊢
      cases ho
      refine htrunc.imp (fun hw => ?_) id
      have hle := (hw i (.inl hentry)).1
      show startPos (s.file name).filepos readfromlast (s.disk.size i) ≤ s.disk.size i
      unfold startPos
      split
      · exact hle
      · split <;> omega

/-! ### Making room -/

theorem checkClose_numbers (hopen : ∀ n ∈ s.open_files, n ∈ L) (h : Numbers conf N L s) :
    Post (fun r => Numbers conf N L r.1) (checkClose conf s) := by
  intro r hr
  rcases checkClose_cases hr with heq | ⟨n, hn, s1, -, -, h1, h2⟩
  · rw [heq]
    exact h
  · have hname := hopen n hn
    exact inputClose_numbers (h.edits (getFilepos_edits conf n s s1 h1) hname) hname r.1 h2

variable (conf) in
/-- What a file is known for is kept when another one, or itself, is closed. -/
structure Kept (name : Name) (s s' : State ι) : Prop where
  disk : s'.disk = s.disk
  cache : s'.cache = s.cache
  quiet : Quiet conf (s.file name) →
    (s'.file name).current_line_number = (s.file name).current_line_number ∧ Quiet conf (s'.file name)
  whole : Whole name s → Whole name s'
  closed : (s.file name).input = none → s'.file name = s.file name

theorem Kept.of_file (hdisk : s'.disk = s.disk) (hcache : s'.cache = s.cache)
    (hfile : s'.file name = s.file name) :
    Kept conf name s s' := by
  refine ⟨hdisk, hcache, fun hq => ?_, fun hw => ?_, fun _ => hfile⟩
  · rw [hfile]
    exact ⟨rfl, hq⟩
  · unfold Whole
    rw [hdisk, hfile]
    exact hw

theorem closeFile_kept (name : Name) {n : Name} {s1 s2 : State ι} (h1 : getFilepos conf n s = .ok s1)
    (h2 : inputClose conf n s1 = .ok s2) : Kept conf name s s2 := by
  have ho1 := (getFilepos_edits conf n s s1 h1).only
  have ho2 := inputClose_only conf n s1 s2 h2
  by_cases hn : name = n
  · subst hn
    obtain ⟨o, ho, hs1⟩ : ∃ o, (s.file name).input = some o ∧
        s1 = s.setFile name { s.file name with filepos := position conf o } := by
      unfold getFilepos at h1
      split at h1
      · cases h1
      · next o ho => exact ⟨o, ho, (Except.ok.inj h1).symm⟩
    have hfile1 : s1.file name = { s.file name with filepos := position conf o } := by
      rw [hs1]
      simp [State.setFile]
    obtain ⟨hclosed, -, hpos⟩ := inputClose_pos conf name s1 s2 h2
    refine ⟨ho2.disk.trans ho1.disk, ho2.cache.trans ho1.cache, fun hq => ?_, fun hw i hi =>
      ?_, fun hnone => ?_⟩
    · have hq1 : Quiet conf (s1.file name) := by
        rw [hfile1]
        exact hq
      refine ⟨?_, quiet_of_closed hclosed⟩
      rw [(inputClose_quiet hq1 s2 h2).2.1, hfile1]
    · have hentry : s.disk.entry name = .inode i := by
        rcases hi with hi | ⟨o1, ho1, -⟩
        · rwa [ho2.disk, ho1.disk] at hi
        · rw [hclosed] at ho1
          cases ho1
      have hlast := hpos o (by rw [hfile1]; exact ho)
      have hwhole := (hw i (.inl hentry)).2 o ho
      rw [ho2.disk, ho1.disk]
      refine ⟨by omega, fun o1 ho1 => ?_⟩
      rw [hclosed] at ho1
      cases ho1
    · rw [ho] at hnone
      cases hnone
  · exact .of_file (ho2.disk.trans ho1.disk) (ho2.cache.trans ho1.cache)
      ((ho2.others name hn).trans (ho1.others name hn))

theorem checkClose_kept (name : Name) : Post (fun r => Kept conf name s r.1) (checkClose conf s) := by
  intro r hr
  rcases checkClose_cases hr with heq | ⟨n, -, s1, -, -, h1, h2⟩
  · rw [heq]
    exact .of_file rfl rfl rfl
  · exact closeFile_kept name h1 h2

theorem Kept.unnumbered (h : Kept conf name s s') (hu : Unnumbered conf name s) : Unnumbered conf name s' :=
  ⟨(h.quiet hu.quiet).1.trans hu.counter, (savedNumber_of_cache h.cache name).trans hu.saved,
    (h.quiet hu.quiet).2⟩

theorem Kept.droppable (h : Kept conf name s s') (hd : Droppable conf name s) : Droppable conf name s' := by
  refine ⟨fun hsave => ?_, fun hsave => (h.quiet (hd.quiet hsave)).2⟩
  rw [savedNumber_of_cache h.cache, (h.quiet (hd.quiet hsave)).1]
  exact hd.saved hsave

/-- When room was made, the file can be opened. -/
theorem checkClose_open (hclash : NoClash N) (hwf : s.Wf conf) (h : AllNumbers conf N s)
    (hname : name ∈ s.files) (hwhole : Whole name s ∨ Unnumbered conf name s)
    (hmissing : s.disk.entry name = .missing → Unnumbered conf name s) :
    Post (fun r => AllNumbers conf N r.1 ∧
      Post (AllNumbers conf N) (inputOpen conf name false true r.1)) (checkClose conf s) := by
  refine ((checkClose_wf conf hwf).and
    ((checkClose_numbers hwf.known h).and (checkClose_kept name))).mono fun r hr => ?_
  obtain ⟨⟨-, hfiles⟩, hnum, hkept⟩ := hr
  rw [← hfiles] at hnum hname
  refine ⟨hnum, inputOpen_numbers hclash false true hnum hname
    (hwhole.imp hkept.whole fun hu => (hkept.unnumbered hu).counter) fun hentry _ => ?_⟩
  have hu := hkept.unnumbered (hmissing (hkept.disk ▸ hentry))
  exact ⟨hu.saved.trans hu.counter.symm, fun _ => hu.counter⟩

/-! ### Checking -/

theorem Numbers.restart (h : Numbers conf N L s) (hname : name ∈ L)
    (hnote : x.name = name) (hx : ∀ k, x.count name k = 0)
    (hzero : (s.file name).current_line_number = 0) : Numbers conf N L (s.note x) := by
  refine h.only (Only.note s hnote) hname ⟨?_, lineNumbers_reset h.numbered hx⟩
  rw [State.note, ordinal_snoc, hx]
  exact congrArg Int64.toInt hzero

theorem Numbers.cacheZero (h : Numbers conf N L s) (hclash : NoClash N) (hname : name ∈ L) :
    Numbers conf N L ((s.cacheSet name 0).cacheSet (countKey name) 0) :=
  h.cache hclash hname _ fun k hk hk' => by
    rw [if_neg hk', State.cacheSet]
    exact if_neg hk

theorem savedNumber_zero (name : Name) (s : State ι) :
    savedNumber conf ((s.cacheSet name 0).cacheSet (countKey name) 0) name = 0 := by
  simp [savedNumber, State.cacheSet]

variable {i : Nat}

theorem noteRotated_numbers (hclash : NoClash N) (h : Numbers conf N L s)
    (hname : name ∈ L) (hrotated : (s.file name).inode ≠ i → Unnumbered conf name s)
    (hwhole : Whole name s ∨ Unnumbered conf name s) :
    Post (fun r => Numbers conf N L r.1 ∧ r.1.disk = s.disk ∧
      (Whole name r.1 ∨ Unnumbered conf name r.1)) (noteRotated conf name i s) := by
  apply Post.ite
  · intro hne
    have hu := hrotated hne
    have hquiet : Quiet conf ((((s.cacheSet name 0).cacheSet (countKey name) 0)).file name) := hu.quiet
    refine ((inputClose_numbers (h.cacheZero hclash hname) hname).and
      ((inputClose_quiet hquiet).and (inputClose_pos conf name _))).bind fun s1 h1 => .ok ?_
    obtain ⟨hnum, ⟨honly, hcount, -⟩, hclosed, -⟩ := h1
    have hzero : (s1.file name).current_line_number = 0 := hcount.trans hu.counter
    have hset : Numbers conf N L (s1.setFile name { s1.file name with filepos := 0, inode := 0 }) :=
      hnum.edits (.file .refl rfl rfl) hname
    refine ⟨hset.restart hname rfl (fun _ => if_pos rfl) (by simpa [State.setFile] using hzero),
      honly.disk, .inr ⟨?_, ?_, ?_⟩⟩
    · simpa [State.note, State.setFile] using hzero
    · exact (savedNumber_of_cache honly.cache name).trans (savedNumber_zero name s)
    · exact quiet_of_closed (by simpa [State.note, State.setFile] using hclosed)
  · exact fun _ => .ok ⟨h, rfl, hwhole⟩

variable (conf name s) in
/-- What only `im_file_check_file` looks at. -/
theorem restat_kept (mtime size : Int) :
    (Whole name s → Whole name (s.setFile name ((s.file name).restat mtime size))) ∧
      (Unnumbered conf name s → Unnumbered conf name (s.setFile name ((s.file name).restat mtime size))) := by
  have hfile : (s.setFile name ((s.file name).restat mtime size)).file name =
    (s.file name).restat mtime size := by
    simp [State.setFile]
  constructor
  · intro hw i hi
    rw [hfile] at hi ⊢
    exact hw i hi
  · intro hu
    refine ⟨?_, hu.saved, ?_⟩
    · rw [hfile]
      exact hu.counter
    · rw [hfile]
      exact hu.quiet

variable (hclash : NoClash N)
include hclash

theorem noteChanged_numbers (h : Numbers conf N L s)
    (hname : name ∈ L) (hentry : s.disk.entry name = .inode i)
    (hwhole : Whole name s ∨ Unnumbered conf name s) :
    Numbers conf N L (noteChanged name i s).1 ∧ (noteChanged name i s).1.disk = s.disk ∧
      (Whole name (noteChanged name i s).1 ∨ Unnumbered conf name (noteChanged name i s).1) := by
  have hset : Numbers conf N L (s.setFile name ((s.file name).restat (s.disk.mtime i) (s.disk.size i))) :=
    h.edits (.file .refl rfl rfl) hname
  obtain ⟨hw, hu⟩ := restat_kept conf name s (s.disk.mtime i) (s.disk.size i)
  unfold noteChanged
  dsimp only
  split
  · next hshort =>
    have hnone : Unnumbered conf name s := by
      refine hwhole.resolve_left fun hw => ?_
      have hle := (hw i (.inl hentry)).1
      have hlt := hshort.2
      omega
    obtain ⟨hcount, -, hquiet⟩ := hu hnone
    refine ⟨(hset.cacheZero hclash hname).restart hname rfl (fun _ => if_pos rfl) hcount, rfl,
      .inr ⟨hcount, ?_, hquiet⟩⟩
    exact savedNumber_zero name _
  · exact ⟨hset, rfl, hwhole.imp hw hu⟩

variable (conf) in
/-- A check finds nothing wrong with a file of which records were counted: it is not shorter than
what was read, it is not another one, and if it is gone then this is not found out by opening it. -/
structure CheckOk (name : Name) (s : State ι) : Prop where
  whole : Whole name s ∨ Unnumbered conf name s
  missing : s.disk.entry name = .missing → (s.file name).filepos < (s.file name).new_size →
    Unnumbered conf name s
  rotated : ∀ i, s.disk.entry name = .inode i → (s.file name).inode ≠ 0 → (s.file name).inode ≠ i →
    Unnumbered conf name s

theorem noteFound_numbers (h : Numbers conf N L s)
    (hname : name ∈ L) (hok : CheckOk conf name s) (hentry : s.disk.entry name = .inode i) :
    Post (fun r => Numbers conf N L r.1 ∧ r.1.disk = s.disk ∧
      (Whole name r.1 ∨ Unnumbered conf name r.1)) (noteFound conf name i s) := by
  apply Post.ite
  · exact fun _ => .ok ⟨h, rfl, hok.whole⟩
  · intro hinode
    refine (noteRotated_numbers hclash h hname (hok.rotated i hentry hinode) hok.whole).bind fun r hr => .ok ?_
    obtain ⟨hnum, hdisk, hwhole⟩ := hr
    obtain ⟨hnum1, hdisk1, hwhole1⟩ := noteChanged_numbers hclash hnum hname (hdisk ▸ hentry) hwhole
    exact ⟨hnum1, hdisk1.trans hdisk, hwhole1⟩

theorem checkFound_numbers (hwf : s.Wf conf)
    (h : AllNumbers conf N s) (hname : name ∈ s.files) (hok : CheckOk conf name s)
    (hentry : s.disk.entry name = .inode i) : Post (AllNumbers conf N) (checkFound conf name i s) := by
  refine ((noteFound_works conf name s i).and (noteFound_numbers hclash h hname hok hentry)).bind
    fun r hr => ?_
  obtain ⟨⟨hworks, hfiles⟩, hnum, hdisk, hwhole⟩ := hr
  rw [← hfiles] at hnum hname
  apply Post.ite
  · intro _
    refine (checkClose_open hclash (hworks.wf hwf) hnum hname hwhole fun hmissing => ?_).bind fun r1 h1 => h1.2
    rw [hdisk, hentry] at hmissing
    cases hmissing
  · exact fun _ => .ok hnum

theorem checkFile_numbers (hwf : s.Wf conf) (h : AllNumbers conf N s)
    (hname : name ∈ s.files) (hok : CheckOk conf name s) :
    Post (AllNumbers conf N) (checkFile conf name s) := by
  apply Post.ite
  · exact fun _ => .ok h
  intro _
  apply Post.ite
  · intro hunread
    refine (checkClose_open hclash hwf h hname hok.whole fun hm => hok.missing hm hunread).bind fun r hr => ?_
    apply Post.ite
    · exact fun _ => hr.2
    · exact fun _ => .ok hr.1
  · intro _
    split
    · next i hentry => exact checkFound_numbers hclash hwf h hname hok hentry
    · exact blacklist_numbers h hname
    apply Post.ite
    · exact fun _ => blacklist_numbers h hname
    intro _
    have hremove : Numbers conf N s.files
        (((s.forget name).cacheRemove name).cacheRemove (countKey name)) := by
      have hc := h.cache hclash hname (fun k =>
        if k = countKey name then none else if k = name then none else s.cache k)
        fun k hk hk' => by rw [if_neg hk', if_neg hk]
      exact ⟨hc.live, hc.saved, hc.numbered⟩
    refine ((inputClose_only conf name _).and (inputClose_numbers hremove hname)).bind fun s1 h1 => .ok ?_
    show Numbers conf N s1.files _
    rw [h1.1.files]
    refine h1.2.delete rfl (fun _ => if_pos rfl) ?_
    rw [savedNumber_of_cache h1.1.cache]
    simp [savedNumber, State.cacheRemove]

/-! ### Adding -/

omit hclash

theorem Droppable.of_file (hd : Droppable conf name s) (hfile : s'.file name = s.file name)
    (hcache : s'.cache (countKey name) = s.cache (countKey name)) : Droppable conf name s' := by
  refine ⟨fun hsave => ?_, fun hsave => ?_⟩
  · rw [savedNumber, hcache, hfile]
    exact hd.saved hsave
  · rw [hfile]
    exact hd.quiet hsave

variable (conf) in
/-- A new file is not shorter than its position, and not gone, if a number is saved for it; and the
file it was renamed from is saved. -/
structure AddOk (name : Name) (s : State ι) : Prop where
  dupe : ∀ m, dupeOf conf name s = some m → Droppable conf m s
  missing : s.disk.entry name = .missing → 0 < savedPos conf s name → savedNumber conf s name = 0
  whole : ∀ i, s.disk.entry name = .inode i → newPos conf name s ≤ s.disk.size i ∨ savedNumber conf s name = 0

/-- What happens to the other files before a new one is put into the hash. -/
theorem dropDupe_numbers (h : AllNumbers conf N s) (hok : AddOk conf name s) :
    Post (fun s' => AllNumbers conf N s' ∧ s'.disk = s.disk ∧ s'.cache = s.cache ∧
      ∀ n ∈ s'.files, n ∈ s.files ∧ s'.file n = s.file n) (dropDupe conf name s) := by
  unfold dropDupe
  split
  · exact .ok ⟨h, rfl, rfl, fun _ hn => ⟨hn, rfl⟩⟩
  next dupe hdupe =>
  refine ((dropFile_numbers h (.inl (dupeOf_mem hdupe)) (hok.dupe dupe hdupe)).and
    (dropFile_only conf dupe s)).mono fun s' h' => ?_
  obtain ⟨hnum, honly⟩ := h'
  refine ⟨hnum, honly.disk, honly.cache, fun n hn => ?_⟩
  rw [honly.files] at hn
  obtain ⟨hn, hne⟩ := mem_filter.mp hn
  exact ⟨hn, honly.others n (by simpa using hne)⟩

/-- A file with its saved number is in the hash. -/
theorem Numbers.insert (h : AllNumbers conf N s) (hN : N name) (hname : name ∉ s.files)
    (filepos : Int) {k : Int64}
    (hk : k = savedNumber conf s name) :
    Numbers conf N (s.files ++ [name])
    { s.setFile name (.new filepos k) with files := s.files ++ [name] } := by
  have hnew : ∀ n, n ∈ s.files → n ≠ name := fun n hn heq => hname (heq ▸ hn)
  refine ⟨fun n hn => ?_, fun n hNn hn => ?_, h.numbered⟩
  · rcases mem_append.mp hn with hn | hn
    · simpa [State.setFile, hnew n hn] using h.live n hn
    · rw [mem_singleton.mp hn]
      refine ⟨hN, ?_⟩
      simp only [State.setFile, if_true, FileInput.new, hk]
      exact h.saved name hN hname
  · exact h.saved n hNn fun hs => hn (mem_append_left _ hs)

theorem addNew_numbers (hclash : NoClash N) (readfromlast : Bool) (hwf : s.Wf conf)
    (h : AllNumbers conf N s) (hN : N name) (hname : name ∉ s.files) (hok : AddOk conf name s) :
    Post (fun s' => AllNumbers conf N s' ∧
      ∀ m ∈ s'.files, m ≠ name → m ∈ s.files ∧ (Droppable conf m s → Droppable conf m s'))
      (addNew conf name readfromlast s) := by
  refine ((dropDupe_wf conf name hwf).and (dropDupe_numbers h hok)).bind fun s1 h1 => ?_
  obtain ⟨⟨hwf1, -⟩, hnum1, hdisk, hcache, hfile⟩ := h1
  have hname1 : name ∉ s1.files := fun hin => hname (hfile name hin).1
  have hsaved : savedNumber conf s name = savedNumber conf s1 name := (savedNumber_of_cache hcache name).symm
  have hwf2 := addFile_new_wf name (f := .new (newPos conf name s) (savedNumber conf s name)) rfl hwf1 hname1
  have hnum2 := hnum1.insert hN hname1 (newPos conf name s) hsaved
  generalize hs2 : ({ s1.setFile name (.new (newPos conf name s) (savedNumber conf s name)) with
    files := s1.files ++ [name] } : State ι) = s2 at hwf2 hnum2 ⊢
  have hfile2 : s2.file name = .new (newPos conf name s) (savedNumber conf s name) := by
    simp [← hs2, State.setFile]
  have hfiles2 : s2.files = s1.files ++ [name] := by rw [← hs2]
  rw [← hfiles2] at hnum2
  have hkept : Post (fun r => ∀ m, Kept conf m s2 r.1) (checkClose conf s2) := fun r hr m =>
    checkClose_kept m r hr
  refine ((checkClose_wf conf hwf2).and ((checkClose_numbers hwf2.known hnum2).and hkept)).bind fun r hr => ?_
  obtain ⟨⟨-, hfiles3⟩, hnum3, hkept⟩ := hr
  rw [← hfiles3] at hnum3
  have hin3 : name ∈ r.1.files := by
    rw [hfiles3, hfiles2]
    simp
  -- the file is still closed, so what is known of it is what was saved
  have hfile3 : r.1.file name = .new (newPos conf name s) (savedNumber conf s name) :=
    ((hkept name).closed (by rw [hfile2]; rfl)).trans hfile2
  have hdisk3 : r.1.disk = s.disk := by
    rw [(hkept name).disk, ← hdisk, ← hs2]
    rfl
  have hcache3 : r.1.cache = s.cache := by
    rw [(hkept name).cache, ← hcache, ← hs2]
    rfl
  have hopen : Post (AllNumbers conf N)
      (inputOpen conf name readfromlast (decide (0 < savedPos conf s name)) r.1) := by
    refine inputOpen_numbers hclash readfromlast _ hnum3 hin3 ?_ fun hentry _ => ?_
    · rw [hfile3]
      by_cases hzero : savedNumber conf s name = 0
      · exact .inr hzero
      · refine .inl fun i hi => ?_
        rw [hfile3, hdisk3] at *
        rcases hi with hi | ⟨o, ho, -⟩
        · exact ⟨(hok.whole i hi).resolve_right hzero, fun _ ho => by cases ho⟩
        · cases ho
    · rw [hfile3, savedNumber_of_cache hcache3]
      exact ⟨rfl, fun hex => hok.missing (hdisk3 ▸ hentry) (of_decide_eq_true hex)⟩
  refine (hopen.and (inputOpen_beside conf name r.1 readfromlast _)).mono fun s' h' =>
    ⟨h'.1, fun m hm hne => ?_⟩
  have hm3 : m ∈ r.1.files := (h'.2.files m hne).mp hm
  have hm1 : m ∈ s1.files := by
    rw [hfiles3, hfiles2] at hm3
    exact (mem_append.mp hm3).resolve_right (by simpa using hne)
  refine ⟨(hfile m hm1).1, fun hd => ?_⟩
  have hd2 : Droppable conf m s2 := by
    refine hd.of_file ?_ ?_
    · rw [← (hfile m hm1).2, ← hs2]
      simp [State.setFile, hne]
    · rw [← hcache, ← hs2]
      rfl
  have hkey : countKey m ≠ name := fun heq => hclash m name (hnum3.live m hm3).1 hN heq.symm
  refine ((hkept m).droppable hd2).of_file (h'.2.others m hne) (h'.2.cache _ hkey fun heq => ?_)
  exact hne (append_cancel_right heq)

/-- Dropping a file leaves what is saved as it was. -/
theorem dropFile_droppable {m : Name} (hm : Droppable conf m s) :
    Post (Droppable conf m) (dropFile conf name s) := by
  by_cases hsave : conf.savepos = true
  · refine Post.bind (P := Droppable conf m) ?_ fun s1 h1 => .ok ?_
    · by_cases heq : m = name
      · subst heq
        have hquiet : Quiet conf ((s.forget m).file m) := hm.quiet hsave
        refine ((inputClose_quiet hquiet).and (inputClose_pos conf m _)).mono fun s' h' => ?_
        obtain ⟨⟨honly, hcount, -⟩, hclosed, -⟩ := h'
        refine ⟨fun _ => ?_, fun _ => quiet_of_closed hclosed⟩
        rw [savedNumber_of_cache honly.cache, hcount]
        exact hm.saved hsave
      · exact (inputClose_only conf name _).mono fun s' h' =>
          hm.of_file (h'.others m heq) (by rw [h'.cache]; rfl)
    · rwa [if_pos hsave]
  · exact fun s' _ => ⟨fun h => absurd h hsave, fun h => absurd h hsave⟩

/-- A file is in the hash or closed after another one, or itself, was dropped. -/
theorem dropFile_closed {m : Name} (hm : m ∈ s.files ∨ (s.file m).input = none) :
    Post (fun s' => m ∈ s'.files ∨ (s'.file m).input = none) (dropFile conf name s) := by
  by_cases heq : m = name
  · subst heq
    refine (inputClose_pos conf m _).bind fun s1 h1 => .ok (.inr ?_)
    split
    · exact h1.1
    · exact h1.1
  · refine (dropFile_only conf name s).mono fun s' h' => hm.imp (fun hin => ?_) fun hnone => ?_
    · rw [h'.files]
      exact mem_filter.mpr ⟨hin, by simpa using heq⟩
    · rw [h'.others m heq]
      exact hnone

theorem dropOthers_numbers (names : List Name) (h : AllNumbers conf N s)
    (hdrop : ∀ m ∈ names, m ≠ name → (m ∈ s.files ∨ (s.file m).input = none) ∧ Droppable conf m s) :
    Post (AllNumbers conf N) (dropOthers conf name names s) := by
  induction names generalizing s with
  | nil => exact .ok h
  | cons n names ih =>
    apply Post.ite
    · intro hne
      obtain ⟨hin, hn⟩ := hdrop n mem_cons_self hne
      have hkeep : Post (fun s' => ∀ m, (m ∈ s.files ∨ (s.file m).input = none) ∧ Droppable conf m s →
          (m ∈ s'.files ∨ (s'.file m).input = none) ∧ Droppable conf m s') (dropFile conf n s) :=
        fun s' hs' m hm => ⟨dropFile_closed hm.1 s' hs', dropFile_droppable hm.2 s' hs'⟩
      refine ((dropFile_numbers h hin hn).and hkeep).bind fun s1 h1 => ?_
      exact ih h1.1 fun m hm hmne => h1.2 m (hdrop m (mem_cons_of_mem n hm) hmne)
    · exact fun _ => ih h (forall_mem_cons.mp hdrop).2

theorem addFile_numbers (hclash : NoClash N) (readfromlast single : Bool) (hwf : s.Wf conf)
    (h : AllNumbers conf N s) (hN : N name) (hadd : name ∉ s.files → AddOk conf name s)
    (hsingle : single = true → ∀ m ∈ s.files, m ≠ name → Droppable conf m s) :
    Post (AllNumbers conf N) (addFile conf name readfromlast single s) := by
  have hadded : Post (fun s' => AllNumbers conf N s' ∧
      ∀ m ∈ s'.files, m ≠ name → m ∈ s.files ∧ (Droppable conf m s → Droppable conf m s'))
      (addUnknown conf name readfromlast { s with wildcard := !single }) := by
    have hwild : Numbers conf N s.files { s with wildcard := !single } := ⟨h.live, h.saved, h.numbered⟩
    have hdrop : ∀ m, Droppable conf m s → Droppable conf m { s with wildcard := !single } :=
      fun m hd => hd.of_file rfl rfl
    apply Post.ite
    · exact fun _ => .ok ⟨hwild, fun m hm _ => ⟨hm, hdrop m⟩⟩
    intro hname
    have hok : AddOk conf name { s with wildcard := !single } :=
      ⟨fun m hm => hdrop m ((hadd hname).dupe m hm), (hadd hname).missing, (hadd hname).whole⟩
    have hwf' : State.Wf conf { s with wildcard := !single } := hwf.keeps ⟨rfl, rfl, rfl, fun _ => rfl⟩ rfl
    refine (addNew_numbers hclash readfromlast hwf' hwild hN hname hok).mono fun s' h' =>
      ⟨h'.1, fun m hm hne => ?_⟩
    exact ⟨(h'.2 m hm hne).1, fun hd => (h'.2 m hm hne).2 (hdrop m hd)⟩
  refine hadded.bind fun s1 h1 => ?_
  apply Post.ite
  · intro hs
    refine dropOthers_numbers s1.files h1.1 fun m hm hne => ?_
    obtain ⟨hin, hkeep⟩ := h1.2 m hm hne
    exact ⟨.inl hm, hkeep (hsingle hs m hin hne)⟩
  · exact fun _ => .ok h1.1

/-! ### Reading -/

theorem Reading.numbers (hclash : NoClash N) (hr : Reading conf name s s')
    (h : AllNumbers conf N s) (hname : name ∈ s.files) : Numbers conf N s.files s' := by
  induction hr with
  | refl => exact h
  | edits _ hs2 ih => exact ih.edits hs2 hname
  | save _ hkey value ih =>
    refine ih.cache hclash hname _ fun k hk hk' => if_neg ?_
    rcases hkey with rfl | rfl
    · exact hk
    · exact hk'
  | next _ ih => exact ⟨ih.live, ih.saved, ih.numbered⟩
  | close _ hs2 ih => exact inputClose_numbers ih hname _ hs2

/-! ### Stopping -/

theorem closeAll_numbers (names : List Name) (hnames : ∀ n ∈ names, n ∈ L) (h : Numbers conf N L s) :
    Post (fun s' => Numbers conf N L s' ∧ s'.files = s.files) (closeAll conf names s) := by
  induction names generalizing s with
  | nil => exact .ok ⟨h, rfl⟩
  | cons name names ih =>
    have hname := hnames name mem_cons_self
    refine (getFilepos_edits conf name s).bind fun s1 h1 => ?_
    refine ((inputClose_only conf name s1).and (inputClose_numbers (h.edits h1 hname) hname)).bind
      fun s2 h2 => ?_
    refine (ih (forall_mem_cons.mp hnames).2 h2.2).mono fun s3 h3 => ⟨h3.1, ?_⟩
    exact h3.2.trans (h2.1.files.trans h1.only.files)

/-- Files that are let go have no numbers. -/
theorem ordinal_forgotten {out : List Note} (h : LineNumbers out) (names : List Name) :
    LineNumbers (out ++ names.map .forgotten) ∧
      ∀ n, (n ∉ names → ordinal n out = 0) → ordinal n (out ++ names.map .forgotten) = 0 := by
  induction names generalizing out with
  | nil => exact ⟨by simpa using h, fun n hzero => by simpa using hzero⟩
  | cons name names ih =>
    obtain ⟨hnumbers, hall⟩ := ih (lineNumbers_snoc h (x := .forgotten name) nofun)
    rw [map_cons, append_cons]
    refine ⟨hnumbers, fun n hzero => hall n fun hnames => ?_⟩
    rw [ordinal_snoc]
    by_cases heq : name = n
    · exact if_pos heq
    · refine (if_neg heq).trans (hzero fun hmem => ?_)
      exact (mem_cons.mp hmem).elim (fun h => heq h.symm) hnames

theorem stop_numbers (hclash : NoClash N) (hwf : s.Wf conf) (h : AllNumbers conf N s) :
    Post (AllNumbers conf N) (stop conf s) := by
  refine (closeAll_numbers s.open_files hwf.known h).bind fun s1 h1 => .ok ?_
  obtain ⟨hnum, hfiles⟩ := h1
  rw [← hfiles] at hnum
  by_cases hsave : conf.savepos = true
  · obtain ⟨cache, hfold, hcache⟩ := saveFiles_saved conf hsave s1.files s1
    rw [hfold]
    refine ⟨nofun, fun n hN _ => ?_, hnum.numbered⟩
    have hkeys : ∀ m ∈ s1.files, m ≠ countKey n := fun m hm => hclash n m hN (hnum.live m hm).1
    rw [savedNumber, if_pos hsave]
    show ((cache (countKey n)).getD 0).toInt = ordinal n s1.out
    rw [(hcache n).2 hkeys]
    split
    · next hin => exact (hnum.live n hin).2
    · next hin =>
      have hsaved := hnum.saved n hN hin
      rwa [savedNumber, if_pos hsave] at hsaved
  · obtain ⟨hnumbered, hzero⟩ := ordinal_forgotten hnum.numbered s1.files
    rw [saveFiles_forgotten conf hsave]
    refine ⟨nofun, fun n hN _ => ?_, hnumbered⟩
    rw [hzero n fun hin => ?_, savedNumber, if_neg hsave]
    · rfl
    · have hsaved := hnum.saved n hN hin
      rw [savedNumber, if_neg hsave] at hsaved
      exact Int.natCast_eq_zero.mp hsaved.symm

end Numbers

/-! ## Every run -/

variable (conf : Conf ι) (N : Name → Prop)

/-- What is counted for a file is not given up: a check finds nothing wrong with it, and it is saved
when it is dropped. The names of the files are `N`. -/
def StepOk (s : State ι) : Event → Prop
  | .checkFile name => name ∈ s.files → CheckOk conf name s
  | .addFile name _ single =>
    N name ∧ (name ∉ s.files → AddOk conf name s) ∧
      (single = true → ∀ m ∈ s.files, m ≠ name → Droppable conf m s)
  | _ => True

variable {conf N}

theorem step_numbers (hclash : NoClash N) {s : State ι} (hwf : s.Wf conf)
    (h : AllNumbers conf N s) {e : Event} (hok : StepOk conf N s e) :
    Post (AllNumbers conf N) (s.step conf e) := by
  cases e with
  | disk disk => exact .ok ⟨h.live, h.saved, h.numbered⟩
  | readFirst =>
    refine .ok ?_
    split
    · exact ⟨h.live, h.saved, h.numbered⟩
    · exact h
  | readTurn =>
    simp only [State.step]
    split
    · exact .ok h
    · next name hcurr =>
      refine (readTurn_reading conf name s).mono fun s1 h1 => ?_
      rw [AllNumbers, h1.works.2]
      exact h1.numbers hclash h (hwf.known name (hwf.current name hcurr))
  | checkFile name =>
    apply Post.ite
    · exact fun hname => checkFile_numbers hclash hwf h hname (hok hname)
    · exact fun _ => .ok h
  | addFile name readfromlast single =>
    exact addFile_numbers hclash readfromlast single hwf h hok.1 hok.2.1 hok.2.2
  | stop => exact stop_numbers hclash hwf h

theorem start_numbers (disk : Disk) : Numbers conf N [] (State.start disk : State ι) := by
  refine ⟨nofun, fun n _ _ => ?_, fun before _ _ _ _ hout => ?_⟩
  · simp [savedNumber, State.start, ordinal]
  · simp [State.start] at hout

/-- In a run in which nothing that is counted is given up, every record is numbered with its
ordinal. -/
theorem line_numbers (hclash : ∀ n m, N n → N m → m ≠ countKey n) (disk : Disk) {events : List Event}
    (hok : AllSteps (State.step conf) (StepOk conf N) (State.start disk) events) :
    Always (State.step conf) (fun s => LineNumbers s.out) (State.start disk) events := by
  have hgood : Always (State.step conf) (fun s => s.Wf conf ∧ AllNumbers conf N s)
    (State.start disk) events := by
    refine always_of_step (fun s e s' h hc hs' => ?_) ⟨start_wf conf disk, start_numbers disk⟩ hok
    exact ⟨step_wf conf h.1 e s' hs', step_numbers hclash h.1 h.2 hc s' hs'⟩
  exact hgood.mono fun s h => h.2.numbered

/-! ### Two runs -/

theorem line_numbers_restart : ∃ s,
    run (State.step sampleConf) (State.start (sampleDisk 1 (ascii "x\n"))) restart = .ok s ∧
    s.out = [sampleRecord 1 (ascii "x"), sampleRecord 2 (ascii "y")] ∧ LineNumbers s.out := by
  have hadd : ∀ (s : State Input) (data : Bytes), s.disk = sampleDisk 1 data →
    savedPos sampleConf s (ascii "a") ≤ data.length →
      s.files = [] → StepOk sampleConf (· = ascii "a") s (.addFile (ascii "a") false true) := by
    intro s data hdisk hpos hfiles
    refine ⟨rfl, fun _ => ⟨nofun, fun hentry => ?_, fun i _ => .inl ?_⟩, fun _ m hm => ?_⟩
    · rw [hdisk] at hentry
      cases hentry
    · rw [hdisk]
      exact hpos
    · rw [hfiles] at hm
      cases hm
  have hok : AllSteps (State.step sampleConf) (StepOk sampleConf (· = ascii "a"))
    (State.start (sampleDisk 1 (ascii "x\n"))) restart :=
    .cons rfl (hadd _ (ascii "x\n") rfl (by decide) rfl) <| .cons rfl trivial <|
    .cons rfl trivial <| .cons rfl trivial <|
      .cons rfl trivial <| .cons rfl (hadd _ (ascii "x\ny\n") rfl (by decide) rfl) <| .cons rfl trivial <|
      .cons rfl trivial trivial
  have hout : (run (State.step sampleConf) (State.start (sampleDisk 1 (ascii "x\n"))) restart).map
      State.out = .ok [sampleRecord 1 (ascii "x"), sampleRecord 2 (ascii "y")] := rfl
  obtain ⟨s, hs, hs'⟩ := map_eq_ok hout
  have hclash : ∀ n m : Name, n = ascii "a" → m = ascii "a" → m ≠ countKey n := by
    rintro _ _ rfl rfl
    exact ne_countKey (ascii "a")
  exact ⟨s, hs, hs', (line_numbers hclash _ hok).last hs⟩

def rotation : List Event :=
  [.addFile (ascii "a") false true, .readFirst, .readTurn, .readTurn,
    .disk (sampleDisk 2 (ascii "y\n")), .checkFile (ascii "a"), .readFirst,
    .readTurn]

/-- The first line of the new file has number 2. -/
theorem rotated_line_number : ¬ Always (State.step sampleConf) (fun s => LineNumbers s.out)
    (State.start (sampleDisk 1 (ascii "x\n"))) rotation := by
  have hout : (run (State.step sampleConf) (State.start (sampleDisk 1 (ascii "x\n"))) rotation).map State.out =
      .ok [sampleRecord 1 (ascii "x"), .rotated (ascii "a"), sampleRecord 2 (ascii "y")] := rfl
  obtain ⟨s, hs, hs'⟩ := map_eq_ok hout
  intro h
  have hnumber := (h.last hs [sampleRecord 1 (ascii "x"), .rotated (ascii "a")] (ascii "a") 2 _ [] hs').2
  revert hnumber
  decide

end Nxlog.L4.ImFile
