import Mathlib.Data.List.Induction
import Mathlib.Data.List.Nodup
import Nxlog.L4App.ImFile

/-!
# What the functions of `im_file` leave alone

Most functions work on one file. They change its structure, the list of open files and `currsrc`,
and may deliver records of it.

* `Only name s s'`: nothing else has changed.
* `Linked L s`: the open files are among `L`, they are those with an input, and the file that is
  read from is open.
* `step_wf`: in every state of a run the open files are in the hash.
* `saved_position_iff`: which positions survive the cast before they are saved.
* `failing_file_iff`: what a read or a seek that fails does.
-/
namespace Nxlog.L4.ImFile
open L1 L2 L3 Res List

variable {ι : Type}

/-! ## One file -/

def Note.name : Note → Name
  | .record name _ _ => name
  | .rotated name => name
  | .truncated name => name
  | .deleted name => name
  | .forgotten name => name

theorem ne_countKey (name : Name) : name ≠ countKey name := by
  intro h
  cases self_eq_append_right.mp h

theorem notes_trans {out out' out'' : List Note} {P : Note → Prop}
    (h : ∃ notes, out' = out ++ notes ∧ ∀ x ∈ notes, P x)
    (h' : ∃ notes, out'' = out' ++ notes ∧ ∀ x ∈ notes, P x) : ∃ notes, out'' = out ++ notes ∧
    ∀ x ∈ notes, P x := by
  obtain ⟨notes, rfl, hnotes⟩ := h
  obtain ⟨notes', rfl, hnotes'⟩ := h'
  exact ⟨notes ++ notes', append_assoc .., forall_mem_append.mpr ⟨hnotes, hnotes'⟩⟩

/-- Only this file was worked on. -/
structure Only (name : Name) (s s' : State ι) : Prop where
  disk : s'.disk = s.disk
  files : s'.files = s.files
  wildcard : s'.wildcard = s.wildcard
  cache : s'.cache = s.cache
  others : ∀ n, n ≠ name → s'.file n = s.file n
  notes : ∃ notes, s'.out = s.out ++ notes ∧ ∀ x ∈ notes, x.name = name

namespace Only

variable {name : Name} {s s' s'' : State ι}

theorem refl (name : Name) (s : State ι) : Only name s s := ⟨rfl, rfl, rfl, rfl, fun _ _ => rfl, [], by simp⟩

theorem trans (h : Only name s s') (h' : Only name s' s'') : Only name s s'' := by
  refine ⟨h'.disk.trans h.disk, h'.files.trans h.files, h'.wildcard.trans h.wildcard, h'.cache.trans h.cache,
    fun n hn => (h'.others n hn).trans (h.others n hn), notes_trans h.notes h'.notes⟩

theorem setFile (name : Name) (s : State ι) (f : FileInput ι) : Only name s (s.setFile name f) :=
  ⟨rfl, rfl, rfl, rfl, fun _ hn => if_neg hn, [], by simp [State.setFile]⟩

theorem note (s : State ι) {x : Note} (hx : x.name = name) : Only name s (s.note x) :=
  ⟨rfl, rfl, rfl, rfl, fun _ _ => rfl, [x], rfl, by simpa using hx⟩

/-- The list of open files and `currsrc` belong to no file. -/
theorem links (h : Only name s s') (open_files : List Name) (num_open_files : Int)
    (currsrc : Option Name) : Only name s { s' with open_files, num_open_files, currsrc } :=
  ⟨h.disk, h.files, h.wildcard, h.cache, h.others, h.notes⟩

end Only

/-! ### Edits -/

/-- The list of open files is as it was, and so are the files with an input. -/
structure KeepsLinks (s s' : State ι) : Prop where
  open_files : s'.open_files = s.open_files
  num_open_files : s'.num_open_files = s.num_open_files
  currsrc : s'.currsrc = s.currsrc
  inputs : ∀ n, (s'.file n).input.isSome = (s.file n).input.isSome

namespace KeepsLinks

variable {s s' s'' : State ι}

theorem refl (s : State ι) : KeepsLinks s s := ⟨rfl, rfl, rfl, fun _ => rfl⟩

theorem trans (h : KeepsLinks s s') (h' : KeepsLinks s' s'') : KeepsLinks s s'' :=
  ⟨h'.open_files.trans h.open_files, h'.num_open_files.trans h.num_open_files,
    h'.currsrc.trans h.currsrc, fun n => (h'.inputs n).trans (h.inputs n)⟩

theorem setFile (name : Name) (s : State ι) {f : FileInput ι}
    (hf : f.input.isSome = (s.file name).input.isSome) :
    KeepsLinks s (s.setFile name f) := by
  refine ⟨rfl, rfl, rfl, fun n => ?_⟩
  by_cases hname : n = name
  · subst hname
    simpa [State.setFile] using hf
  · simp [State.setFile, hname]

theorem note (h : KeepsLinks s s') (x : Note) : KeepsLinks s (s'.note x) :=
  ⟨h.open_files, h.num_open_files, h.currsrc, h.inputs⟩

end KeepsLinks

/-- Work that leaves a file open or closed: its structure is edited, or a record of it is
delivered. -/
inductive Edits (name : Name) (s : State ι) : State ι → Prop where
  | refl : Edits name s s
  | file {s1 : State ι} {f : FileInput ι} (h : Edits name s s1)
      (hinput : f.input.isSome = (s1.file name).input.isSome)
      (hcount : f.current_line_number = (s1.file name).current_line_number) : Edits name s (s1.setFile name f)
  | deliver {s1 s2 : State ι} {logdata : Logdata} (h : Edits name s s1)
    (hs2 : deliver name logdata s1 = .ok s2) :
      Edits name s s2

/-- What is delivered is counted in the structure of the file. -/
theorem deliver_eq {name : Name} {logdata : Logdata} {s s' : State ι} (h : deliver name logdata s = .ok s') :
    ∃ number logdata', nextLineNumber (s.file name).current_line_number = .ok number ∧
      setFieldValue logdata lineNumberKey ⟨TRUE, .integer number⟩ = .ok logdata' ∧
      s' = (s.setFile name { s.file name with current_line_number := number }).note
      (.record name number logdata') := by
  obtain ⟨number, hnumber, h⟩ := bind_eq_ok.mp h
  obtain ⟨logdata', hset, h⟩ := bind_eq_ok.mp h
  cases h
  exact ⟨number, logdata', hnumber, hset, rfl⟩

namespace Edits

variable {name : Name} {s s' : State ι}

theorem only (h : Edits name s s') : Only name s s' := by
  induction h with
  | refl => exact Only.refl name s
  | file _ _ _ ih => exact ih.trans (Only.setFile name _ _)
  | deliver _ hs2 ih =>
    obtain ⟨number, logdata', -, -, rfl⟩ := deliver_eq hs2
    exact ih.trans ((Only.setFile name _ _).trans (Only.note _ rfl))

theorem links (h : Edits name s s') : KeepsLinks s s' := by
  induction h with
  | refl => exact KeepsLinks.refl s
  | file _ hinput _ ih => exact ih.trans (.setFile name _ hinput)
  | deliver _ hs2 ih =>
    obtain ⟨number, logdata', -, -, rfl⟩ := deliver_eq hs2
    exact ih.trans (.note (.setFile name _ (by rfl)) _)

end Edits

section OneFile

variable (conf : Conf ι) (name : Name) (s : State ι)

theorem callReader_edits (f : ι → Res (Option Logdata × ι)) {opened : Opened ι}
    (hopen : (s.file name).input = some opened) :
    Post (fun r => Edits name s r.1) (callReader f name opened s) := by
  refine Post.any fun r => ?_
  obtain ⟨r, input⟩ := r
  have hset : Edits name s (s.setInput name (some { opened with input := input })) :=
    .file .refl (by rw [hopen]; rfl) rfl
  cases r with
  | none => exact .ok hset
  | some logdata => exact Post.self.bind fun s' h => .ok (hset.deliver h)

theorem flushInput_edits : Post (Edits name s) (flushInput conf name s) := by
  unfold flushInput
  split
  · next hopen _ => exact (callReader_edits name s _ hopen).bind fun r h => .ok h
  · exact .ok .refl

theorem getFilepos_edits : Post (Edits name s) (getFilepos conf name s) := by
  unfold getFilepos
  split
  · exact .error _
  · exact .ok (.file .refl rfl rfl)

theorem fillBuffer_edits : Post (fun r => Edits name s r.1) (fillBuffer conf name s) := by
  unfold fillBuffer
  split
  · exact .error _
  next opened hopen =>
  have hset : ∀ f : FileInput ι, f.input.isSome → f.current_line_number = (s.file name).current_line_number →
      Edits name s (s.setFile name f) := fun f hf hcount => .file .refl (by rw [hf, hopen]; rfl) hcount
  refine Post.any fun r => ?_
  dsimp only
  split
  · split
    · exact .ok (hset _ rfl rfl)
    · exact .ok (hset _ rfl rfl)
  · exact .ok (hset _ rfl rfl)
  · exact .error _

/-- Where `currsrc` is after a close. -/
def leave (name : Name) (s : State ι) : State ι :=
  { s with currsrc := if s.currsrc = some name then nextFile s.open_files name else s.currsrc }

/-- A close flushes the input, and then there is none or its position is kept. -/
theorem inputClose_cases {conf : Conf ι} {name : Name} {s s' : State ι}
    (h : inputClose conf name s = .ok s') : ∃ s1, flushInput conf name (leave name s) = .ok s1 ∧
      ((s1.file name).input = none ∧ s' = s1 ∨ ∃ o, (s1.file name).input = some o ∧
        s' = { s1.setFile name { s1.file name with filepos := position conf o, input := none } with
          open_files := s1.open_files.filter (· ≠ name), num_open_files := s1.num_open_files - 1 }) := by
  have hcurr : (if s.currsrc = some name then { s with currsrc := nextFile s.open_files name }
    else s) = leave name s := by
    unfold leave
    split <;> rfl
  obtain ⟨s1, h1, h⟩ := bind_eq_ok.mp h
  refine ⟨s1, hcurr ▸ h1, ?_⟩
  split at h
  · next hnone =>
    cases h
    exact .inl ⟨hnone, rfl⟩
  · next o ho =>
    simp only [getFilepos, ho, pure_eq, ok_bind] at h
    split at h
    · cases h
      refine .inr ⟨o, ho, ?_⟩
      simp only [State.setInput, State.setFile, if_true]
      congr
      funext n
      split <;> rfl
    · cases h

theorem inputClose_only : Post (Only name s) (inputClose conf name s) := by
  intro s' h
  have hleave : Only name s (leave name s) := (Only.refl name s).links _ _ _
  obtain ⟨s1, h1, ⟨-, rfl⟩ | ⟨o, -, rfl⟩⟩ := inputClose_cases h
  · exact hleave.trans (flushInput_edits conf name _ _ h1).only
  · exact ((hleave.trans (flushInput_edits conf name _ _ h1).only).trans (Only.setFile name s1 _)).links _ _ _

theorem inputBlacklist_only : Post (Only name s) (inputBlacklist conf name s) :=
  (inputClose_only conf name s).bind fun s1 h1 => .ok (h1.trans (Only.setFile name s1 _))

theorem openFile_only (readfromlast : Bool) (i : Nat) : Only name s (openFile conf name readfromlast i s) :=
  (Only.setFile name s _).links _ _ _

theorem openFile_file (readfromlast : Bool) (i : Nat) :
    (openFile conf name readfromlast i s).file name =
      { s.file name with
        input := some ⟨conf.inputfunc.new, i,
          (startPos (s.file name).filepos readfromlast (s.disk.size i)).toNat⟩
        filepos := startPos (s.file name).filepos readfromlast (s.disk.size i)
        blacklist_until := 0, blacklist_interval := 0 } := by
  simp [openFile, State.setFile]

theorem updateInfo_only (o : Opened ι) : Only name s (updateInfo name o s) := by
  unfold updateInfo
  dsimp only
  split
  · exact (Only.setFile name s _).trans (Only.note _ rfl)
  · exact Only.setFile name s _

theorem statInput_only (opened : Bool) : Post (Only name s) (statInput conf name opened s) := by
  unfold statInput
  split
  · exact .error _
  next o _ =>
  have hinfo := updateInfo_only name s o
  apply Post.ite
  · intro _
    exact (inputClose_only conf name _).mono fun s' h => hinfo.trans h
  · intro _
    exact .ok hinfo

/-- A reader leaves the position in the file alone. -/
theorem callReader_input (f : ι → Res (Option Logdata × ι)) (opened : Opened ι) :
    Post (fun r => (r.1.file name).filepos = (s.file name).filepos ∧
      ∃ input, (r.1.file name).input = some { opened with input := input }) (callReader f name opened s) := by
  refine Post.any fun r => ?_
  obtain ⟨r, input⟩ := r
  cases r with
  | none => exact .ok ⟨by simp [State.setInput, State.setFile], input, by simp [State.setInput, State.setFile]⟩
  | some logdata =>
    refine Post.bind ?_ fun s1 (h1 : (s1.file name).filepos = (s.file name).filepos ∧
      (s1.file name).input = some { opened with input := input }) => .ok ⟨h1.1, input, h1.2⟩
    refine Post.any fun number => ?_
    refine Post.any fun logdata => .ok ?_
    simp [State.note, State.setInput, State.setFile]

theorem flushInput_input : Post (fun s1 : State ι => (s1.file name).filepos = (s.file name).filepos ∧
    ((s.file name).input = none → (s1.file name).input = none) ∧
    ∀ o, (s.file name).input = some o → ∃ input, (s1.file name).input = some { o with input := input })
    (flushInput conf name s) := by
  unfold flushInput
  split
  · next opened flush hinput _ =>
    refine (callReader_input name s flush opened).bind fun r hr => .ok ⟨hr.1, fun hnone => ?_, fun o ho => ?_⟩
    · rw [hinput] at hnone
      cases hnone
    · rw [hinput] at ho
      cases ho
      exact hr.2
  · exact .ok ⟨rfl, id, fun o ho => ⟨o.input, ho⟩⟩

theorem position_le (o : Opened ι) : position conf o ≤ o.offset := by
  unfold position
  split <;> omega

theorem dropFile_only : Post (Only name (s.forget name)) (dropFile conf name s) := by
  refine (inputClose_only conf name _).bind fun s1 h1 => .ok ?_
  split
  · exact h1
  · exact h1.trans (Only.note s1 rfl)

/-- The position that is kept is not behind what was read. -/
theorem inputClose_pos : Post (fun s' : State ι => (s'.file name).input = none ∧
    ((s.file name).input = none → (s'.file name).filepos = (s.file name).filepos) ∧
    ∀ o, (s.file name).input = some o → (s'.file name).filepos ≤ o.offset) (inputClose conf name s) := by
  intro s' h
  obtain ⟨s1, h1, hs'⟩ := inputClose_cases h
  obtain ⟨hpos, hnone, hsome⟩ := flushInput_input conf name _ _ h1
  rcases hs' with ⟨hclosed, rfl⟩ | ⟨o1, hopen, rfl⟩
  · refine ⟨hclosed, fun _ => hpos, fun o ho => ?_⟩
    obtain ⟨input, hinput⟩ := hsome o ho
    rw [hclosed] at hinput
    cases hinput
  · refine ⟨by simp [State.setFile], fun hs => ?_, fun o ho => ?_⟩
    · rw [hnone hs] at hopen
      cases hopen
    · obtain ⟨input, hinput⟩ := hsome o ho
      rw [hopen] at hinput
      cases hinput
      simpa [State.setFile] using position_le conf { o with input := input }

end OneFile

/-! ### Beside the file -/

/-- The other files are as they were: their structures, what is saved of them and whether they are
in the hash. -/
structure Beside (name : Name) (s s' : State ι) : Prop where
  disk : s'.disk = s.disk
  files : ∀ n, n ≠ name → (n ∈ s'.files ↔ n ∈ s.files)
  cache : ∀ k, k ≠ name → k ≠ countKey name → s'.cache k = s.cache k
  others : ∀ n, n ≠ name → s'.file n = s.file n
  notes : ∃ notes, s'.out = s.out ++ notes ∧ ∀ x ∈ notes, x.name = name

theorem Only.beside {name : Name} {s s' : State ι} (h : Only name s s') : Beside name s s' :=
  ⟨h.disk, fun n _ => by rw [h.files], fun k _ _ => by rw [h.cache], h.others, h.notes⟩

namespace Beside

variable {name : Name} {s s' s'' : State ι}

variable (h : Beside name s s')
include h

theorem trans (h' : Beside name s' s'') : Beside name s s'' :=
  ⟨h'.disk.trans h.disk, fun n hn => (h'.files n hn).trans (h.files n hn),
    fun k hk hk' => (h'.cache k hk hk').trans (h.cache k hk hk'), fun n hn =>
    (h'.others n hn).trans (h.others n hn),
    notes_trans h.notes h'.notes⟩

theorem forget : Beside name s (s'.forget name) :=
  ⟨h.disk, fun n hn => by simpa [State.forget, hn] using h.files n hn, h.cache, h.others, h.notes⟩

theorem cacheEntry {key : Name} (hkey : key = name ∨ key = countKey name) (value : Option Int64) :
    Beside name s { s' with cache := fun k => if k = key then value else s'.cache k } := by
  refine ⟨h.disk, h.files, fun k hk hk' => ?_, h.others, h.notes⟩
  have hne : k ≠ key := by
    rcases hkey with rfl | rfl
    · exact hk
    · exact hk'
  exact (if_neg hne).trans (h.cache k hk hk')

theorem cacheSet {key : Name} (hkey : key = name ∨ key = countKey name) (value : Int64) :
    Beside name s (s'.cacheSet key value) := h.cacheEntry hkey _

theorem cacheRemove {key : Name} (hkey : key = name ∨ key = countKey name) :
    Beside name s (s'.cacheRemove key) :=
  h.cacheEntry hkey _

end Beside

theorem Beside.refl (name : Name) (s : State ι) : Beside name s s := (Only.refl name s).beside

/-- A file is closed to make room, or nothing happens. -/
theorem checkClose_cases {conf : Conf ι} {s s' : State ι} {closed : Bool}
    (h : checkClose conf s = .ok (s', closed)) :
    s' = s ∨ ∃ name ∈ s.open_files, ∃ s1, conf.active_files ≤ s.num_open_files ∧ 0 < (s.file name).num_eof ∧
      getFilepos conf name s = .ok s1 ∧ inputClose conf name s1 = .ok s' := by
  unfold checkClose at h
  split at h
  · cases h
    exact .inl rfl
  next hfull =>
  split at h
  · cases h
    exact .inl rfl
  next name hname =>
  obtain ⟨s1, h1, h⟩ := bind_eq_ok.mp h
  obtain ⟨s2, h2, h⟩ := bind_eq_ok.mp h
  cases h
  exact .inr ⟨name, mem_of_find?_eq_some hname, s1, Int.not_lt.mp hfull,
    by simpa using find?_some hname, h1, h2⟩

/-- A renamed file is known under its old name. -/
theorem dupeOf_mem {conf : Conf ι} {name dupe : Name} {s : State ι}
    (h : dupeOf conf name s = some dupe) : dupe ∈ s.files := by
  unfold dupeOf checkRename at h
  split at h
  · split at h
    · exact mem_of_find?_eq_some h
    · cases h
  · cases h

/-- A closed file is left alone. -/
theorem checkClose_closed {conf : Conf ι} {name : Name} {s : State ι} (hclosed : (s.file name).input = none) :
    Post (fun r => r.1.file name = s.file name) (checkClose conf s) := by
  intro r hr
  rcases checkClose_cases hr with heq | ⟨n, -, s1, -, -, h1, h2⟩
  · rw [heq]
  · have hne : name ≠ n := by
      intro heq
      rw [← heq, getFilepos, hclosed] at h1
      cases h1
    rw [(inputClose_only conf n s1 r.1 h2).others name hne,
      (getFilepos_edits conf n s s1 h1).only.others name hne]

/-! ## The open files -/

theorem updateInfo_links (name : Name) (s : State ι) {o : Opened ι}
    (hopen : (s.file name).input = some o) : KeepsLinks s (updateInfo name o s) := by
  unfold updateInfo
  dsimp only
  split
  · exact .note (.setFile name s (by simp [hopen])) _
  · exact .setFile name s (by simp)

/-- The open files are among `L`, they are counted, they are those with an input, and the file that
is read from is open. -/
structure Linked (L : List Name) (s : State ι) : Prop where
  nodup : s.open_files.Nodup
  known : ∀ n ∈ s.open_files, n ∈ L
  num : s.num_open_files = s.open_files.length
  current : ∀ n, s.currsrc = some n → n ∈ s.open_files
  inputs : ∀ n, n ∈ s.open_files ↔ (s.file n).input.isSome

namespace Linked

variable {L L' : List Name} {s s' : State ι}

theorem mono (h : Linked L s) (hL : ∀ n ∈ L, n ∈ L') : Linked L' s :=
  ⟨h.nodup, fun n hn => hL n (h.known n hn), h.num, h.current, h.inputs⟩

theorem keeps (h : Linked L s) (hs : KeepsLinks s s') : Linked L s' := by
  refine ⟨hs.open_files ▸ h.nodup, fun n hn => h.known n (hs.open_files ▸ hn), ?_, fun n hn => ?_, fun n => ?_⟩
  · rw [hs.open_files, hs.num_open_files, h.num]
  · rw [hs.open_files]
    exact h.current n (hs.currsrc ▸ hn)
  · rw [hs.open_files, hs.inputs]
    exact h.inputs n

/-- A file without an input is not open. -/
theorem not_mem (h : Linked L s) {n : Name} (hn : (s.file n).input = none) : n ∉ s.open_files :=
    fun hopen => by
  have hsome := (h.inputs n).mp hopen
  rw [hn] at hsome
  cases hsome

end Linked

theorem length_filter_ne {α : Type} [DecidableEq α] {l : List α} {a : α} (hl : l.Nodup)
    (h : a ∈ l) : (l.filter (· ≠ a)).length + 1 = l.length := by
  rw [← length_erase_add_one h, hl.erase_eq_filter]
  simp only [bne, decide_not]
  rfl

theorem nextFile_mem {l : List Name} {name m : Name} (h : nextFile l name = some m) : m ∈ l :=
  (dropWhile_sublist _).subset (mem_of_mem_tail (mem_of_mem_head? h))

theorem nextFile_ne {l : List Name} {name m : Name} (hl : l.Nodup) (h : nextFile l name = some m) :
    m ≠ name := by
  unfold nextFile at h
  have hdrop : (l.dropWhile (· ≠ name)).Nodup := hl.sublist (dropWhile_sublist _)
  cases hd : l.dropWhile (· ≠ name) with
  | nil =>
    rw [hd] at h
    cases h
  | cons a rest =>
    have ha : a = name := by
      have hhead := head?_dropWhile_not (fun n => decide (n ≠ name)) l
      rw [hd] at hhead
      simpa using hhead
    rw [hd] at h hdrop
    rintro rfl
    exact (nodup_cons.mp hdrop).1 (ha ▸ mem_of_mem_head? h)

section Close

variable (conf : Conf ι) (name : Name) {L : List Name} {s : State ι}

/-- After a close the file is not open. -/
theorem inputClose_linked (h : Linked L s) : Post (Linked (L.filter (· ≠ name))) (inputClose conf name s) := by
  intro s' hs'
  have hleave : Linked L (leave name s) ∧ (leave name s).currsrc ≠ some name := by
    unfold leave
    split
    · exact ⟨⟨h.nodup, h.known, h.num, fun n hn => nextFile_mem hn, h.inputs⟩, fun hn =>
        nextFile_ne h.nodup hn rfl⟩
    · next hne => exact ⟨⟨h.nodup, h.known, h.num, h.current, h.inputs⟩, hne⟩
  obtain ⟨s1, hflush, hcase⟩ := inputClose_cases hs'
  have hk1 := (flushInput_edits conf name _ _ hflush).links
  have h1 := hleave.1.keeps hk1
  have hne1 : s1.currsrc ≠ some name := hk1.currsrc ▸ hleave.2
  rcases hcase with ⟨hnone, rfl⟩ | ⟨o, hopen, rfl⟩
  · refine ⟨h1.nodup, fun n hn => ?_, h1.num, h1.current, h1.inputs⟩
    have hname : n ≠ name := fun heq => h1.not_mem hnone (heq ▸ hn)
    simp [h1.known n hn, hname]
  · refine ⟨h1.nodup.filter _, fun n hn => ?_, ?_, fun n hn => ?_, fun n => ?_⟩
    · obtain ⟨hn, hname⟩ := mem_filter.mp hn
      exact mem_filter.mpr ⟨h1.known n hn, hname⟩
    · have hlen := length_filter_ne h1.nodup ((h1.inputs name).mpr (by rw [hopen]; rfl))
      dsimp only
      rw [h1.num]
      omega
    · refine mem_filter.mpr ⟨h1.current n hn, ?_⟩
      have hname : n ≠ name := by
        rintro rfl
        exact hne1 hn
      simpa using hname
    · by_cases hname : n = name
      · simp [State.setFile, hname]
      · simpa [State.setFile, hname] using h1.inputs n

/-- A close opens no file, and an open file is not in the list any more. -/
theorem inputClose_length (s : State ι) :
    Post (fun s' : State ι => s'.open_files.length ≤ s.open_files.length ∧
    ((s.file name).input.isSome → s'.open_files = s.open_files.filter (· ≠ name)))
      (inputClose conf name s) := by
  intro s' h
  obtain ⟨s1, h1, hcase⟩ := inputClose_cases h
  have hlinks := (flushInput_edits conf name _ _ h1).links
  have hopen : s1.open_files = s.open_files := hlinks.open_files
  rw [← hopen]
  rcases hcase with ⟨hnone, rfl⟩ | ⟨o, -, rfl⟩
  · refine ⟨Nat.le_refl _, fun hsome => ?_⟩
    have hkept : _ = (s.file name).input.isSome := hlinks.inputs name
    rw [hnone, hsome] at hkept
    cases hkept
  · exact ⟨length_filter_le _ _, fun _ => rfl⟩

theorem filter_subset (L : List Name) (name : Name) : ∀ n ∈ L.filter (· ≠ name), n ∈ L :=
  fun _ hn => (mem_filter.mp hn).1

end Close

/-! ## Every event -/

/-- The open files are in the hash, and not more than ActiveFiles. -/
structure State.Wf (conf : Conf ι) (s : State ι) : Prop extends Linked s.files s where
  bound : s.open_files.length ≤ conf.active_files

section Step

variable {conf : Conf ι} (name : Name) {s s' : State ι}

theorem State.Wf.keeps (h : s.Wf conf) (hs : KeepsLinks s s') (hfiles : s'.files = s.files) : s'.Wf conf :=
  ⟨hfiles ▸ h.toLinked.keeps hs, Nat.le_trans (Nat.le_of_eq (congrArg length hs.open_files)) h.bound⟩

variable (conf)

/-- Work on one file: the others are as they were, no file is opened, and the open files stay in the
hash. -/
structure Works (name : Name) (s s' : State ι) : Prop where
  beside : Beside name s s'
  length : s'.open_files.length ≤ s.open_files.length
  wf : s.Wf conf → s'.Wf conf

variable {conf name}

theorem Works.keeps (hb : Beside name s s') (hl : KeepsLinks s s') (hfiles : s'.files = s.files) :
    Works conf name s s' :=
  ⟨hb, Nat.le_of_eq (congrArg List.length hl.open_files), fun hs => hs.keeps hl hfiles⟩

section Works

variable (h : Works conf name s s')
include h

theorem Works.trans {s'' : State ι} (h' : Works conf name s' s'') : Works conf name s s'' :=
  ⟨h.beside.trans h'.beside, Nat.le_trans h'.length h.length, fun hs => h'.wf (h.wf hs)⟩

theorem Works.setFile {f : FileInput ι} (hf : f.input.isSome = (s'.file name).input.isSome) :
    Works conf name s (s'.setFile name f) :=
  h.trans (.keeps (Only.setFile name s' f).beside (.setFile name s' hf) rfl)

theorem Works.note {x : Note} (hx : x.name = name) : Works conf name s (s'.note x) :=
  h.trans (.keeps (Only.note s' hx).beside (.note (.refl s') x) rfl)

theorem Works.cacheSet {key : Name} (hkey : key = name ∨ key = countKey name) (value : Int64) :
    Works conf name s (s'.cacheSet key value) :=
  h.trans (.keeps ((Beside.refl name s').cacheEntry hkey _) ⟨rfl, rfl, rfl, fun _ => rfl⟩ rfl)

end Works

/-- A close, when the file may have been forgotten already. -/
theorem inputClose_works {s0 : State ι} (hb : Beside name s s0) (hl : KeepsLinks s s0) :
    Post (fun s' => Works conf name s s' ∧ s'.files = s0.files) (inputClose conf name s0) := by
  intro s' hs'
  have honly := inputClose_only conf name s0 s' hs'
  have hlen := (inputClose_length conf name s0 s' hs').1
  rw [hl.open_files] at hlen
  refine ⟨⟨hb.trans honly.beside, hlen, fun hwf => ⟨?_, Nat.le_trans hlen hwf.bound⟩⟩, honly.files⟩
  refine (inputClose_linked conf name (hwf.toLinked.keeps hl) s' hs').mono fun n hn => ?_
  obtain ⟨hn, hne⟩ := mem_filter.mp hn
  rw [honly.files]
  exact (hb.files n (by simpa using hne)).mpr hn

variable (conf name s)

theorem Works.refl : Works conf name s s := .keeps (.refl name s) (.refl s) rfl

theorem inputBlacklist_works : Post (Works conf name s) (inputBlacklist conf name s) :=
  (inputClose_works (.refl name s) (.refl s)).bind fun _ h1 => .ok (h1.1.setFile rfl)

theorem dropFile_works : Post (Works conf name s) (dropFile conf name s) := by
  refine (inputClose_works (Beside.refl name s).forget ⟨rfl, rfl, rfl, fun _ => rfl⟩).bind fun s1 h1 => .ok ?_
  split
  · exact h1.1
  · exact h1.1.note rfl

theorem openMissing_works (existed : Bool) : Post (Works conf name s) (openMissing conf name existed s) := by
  apply Post.ite
  · intro _
    apply Post.ite
    · exact fun _ => inputBlacklist_works conf name s
    intro _
    refine (inputClose_works ((Beside.refl name s).forget.cacheRemove (.inl rfl)) ⟨rfl, rfl, rfl,
      fun _ => rfl⟩).bind
      fun s1 h1 => .ok ?_
    split
    · exact h1.1.note rfl
    · exact h1.1
  · exact fun _ => inputBlacklist_works conf name s

theorem inputOpen_beside (readfromlast existed : Bool) :
    Post (Beside name s) (inputOpen conf name readfromlast existed s) := by
  apply Post.ite
  · exact fun _ => .ok (Beside.refl name s)
  intro _
  split
  · exact (statInput_only conf name s false).mono fun _ h => h.beside
  · split
    · exact (openMissing_works conf name s existed).mono fun _ h => h.beside
    · exact (inputBlacklist_only conf name s).mono fun _ h => h.beside
    · next i _ =>
      apply Post.ite
      · exact fun _ => (statInput_only conf name _ true).mono fun _ h =>
          ((openFile_only conf name s readfromlast i).trans h).beside
      · exact fun _ => (inputBlacklist_only conf name s).mono fun _ h => h.beside

variable {s}

/-- A file that was opened is closed again if there are too many. -/
theorem statInput_wf {opened : Bool} (h : Linked s.files s)
    (hopen : opened = false → s.open_files.length ≤ conf.active_files)
    (hlen : s.open_files.length ≤ conf.active_files + 1) :
    Post (State.Wf conf) (statInput conf name opened s) := by
  unfold statInput
  split
  · exact .error _
  next o ho =>
  have hlinks := updateInfo_links name s ho
  have hlinked := h.keeps hlinks
  have hfiles := (updateInfo_only name s o).files
  have hsome : ((updateInfo name o s).file name).input.isSome := (hlinks.inputs name).trans (by rw [ho]; rfl)
  have hnum := h.num
  rw [← hlinks.num_open_files] at hnum
  apply Post.ite
  · intro _
    refine ((inputClose_linked conf name hlinked).and
      ((inputClose_only conf name _).and (inputClose_length conf name _))).mono
      fun s' h' => ⟨?_, ?_⟩
    · rw [h'.2.1.files, hfiles]
      exact h'.1.mono (filter_subset s.files name)
    · have hlt := length_filter_ne h.nodup ((h.inputs name).mpr (by rw [ho]; rfl))
      rw [h'.2.2.2 hsome, hlinks.open_files]
      omega
  · intro hnot
    refine .ok ⟨hfiles ▸ hlinked, ?_⟩
    rw [hlinks.open_files]
    cases opened with
    | false => exact hopen rfl
    | true =>
      simp only [true_and] at hnot
      omega

theorem inputOpen_wf (readfromlast existed : Bool) (h : s.Wf conf) (hname : name ∈ s.files) :
    Post (State.Wf conf) (inputOpen conf name readfromlast existed s) := by
  have hbound := h.bound
  apply Post.ite
  · exact fun _ => .ok h
  intro _
  split
  · exact statInput_wf conf name h.toLinked (fun _ => hbound) (by omega)
  next hnone =>
  split
  · exact (openMissing_works conf name s existed).mono fun _ h' => h'.wf h
  · exact (inputBlacklist_works conf name s).mono fun _ h' => h'.wf h
  have hclosed : name ∉ s.open_files := h.not_mem hnone
  refine Post.ite (fun _ => ?_) fun _ => (inputBlacklist_works conf name s).mono fun _ h' => h'.wf h
  refine statInput_wf conf name ⟨?_, fun n hn => ?_, ?_, fun n hn =>
    mem_append_left _ (h.current n hn), fun n => ?_⟩ nofun ?_
  · refine nodup_append.mpr ⟨h.nodup, by simp, fun a ha b hb => ?_⟩
    rw [mem_singleton.mp hb]
    rintro rfl
    exact hclosed ha
  · rcases mem_append.mp hn with hn | hn
    · exact h.known n hn
    · rw [mem_singleton.mp hn]
      exact hname
  · simp [openFile, State.setFile, h.num]
  · by_cases heq : n = name
    · rw [heq, openFile_file]
      simp [openFile]
    · rw [(openFile_only conf name s readfromlast _).others n heq, ← h.inputs n]
      simp [openFile, State.setFile, heq]
  · simpa [openFile, State.setFile] using hbound

theorem checkClose_wf (h : s.Wf conf) : Post (fun r => r.1.Wf conf ∧ r.1.files = s.files)
    (checkClose conf s) := by
  rintro ⟨s', closed⟩ hclose
  rcases checkClose_cases hclose with rfl | ⟨n, -, s1, -, -, h1, h2⟩
  · exact ⟨h, rfl⟩
  · have hedits := getFilepos_edits conf n s s1 h1
    obtain ⟨hclose, hfiles⟩ := inputClose_works hedits.only.beside hedits.links s' h2
    exact ⟨hclose.wf h, hfiles.trans hedits.only.files⟩

theorem reopen_wf (h : s.Wf conf) (hname : name ∈ s.files) : Post (State.Wf conf) (reopen conf name s) :=
  (checkClose_wf conf h).bind fun _ hr => inputOpen_wf conf name false true hr.1 (hr.2 ▸ hname)

section Found

variable (s)

theorem noteRotated_works (i : Nat) : Post (fun r => Works conf name s r.1 ∧ r.1.files = s.files)
    (noteRotated conf name i s) := by
  apply Post.ite
  · intro _
    have hcache := ((Beside.refl name s).cacheSet (.inl rfl) 0).cacheSet (.inr rfl) 0
    refine (inputClose_works hcache ⟨rfl, rfl, rfl, fun _ => rfl⟩).bind fun s1 h1 => .ok ⟨?_, h1.2⟩
    exact .note (h1.1.setFile (by rfl)) rfl
  · exact fun _ => .ok ⟨.refl conf name s, rfl⟩

theorem noteChanged_works (i : Nat) :
    Works conf name s (noteChanged name i s).1 ∧ (noteChanged name i s).1.files = s.files := by
  have hset : Works conf name s (s.setFile name ((s.file name).restat (s.disk.mtime i) (s.disk.size i))) :=
    (Works.refl conf name s).setFile rfl
  unfold noteChanged
  dsimp only
  split
  · exact ⟨((hset.cacheSet (.inl rfl) 0).cacheSet (.inr rfl) 0).note rfl, rfl⟩
  · exact ⟨hset, rfl⟩

theorem noteFound_works (i : Nat) : Post (fun r => Works conf name s r.1 ∧ r.1.files = s.files)
    (noteFound conf name i s) := by
  apply Post.ite
  · exact fun _ => .ok ⟨.refl conf name s, rfl⟩
  · intro _
    refine (noteRotated_works conf name s i).bind fun r hr => .ok ?_
    obtain ⟨hchanged, hfiles⟩ := noteChanged_works conf name r.1 i
    exact ⟨hr.1.trans hchanged, hfiles.trans hr.2⟩

/-- A file that is gone. -/
theorem checkGone_works : Post (Works conf name s) (do
    let s' ← inputClose conf name (((s.forget name).cacheRemove name).cacheRemove (countKey name))
    return s'.note (.deleted name)) := by
  have hremove := ((Beside.refl name s).forget.cacheRemove (.inl rfl)).cacheRemove (.inr rfl)
  exact (inputClose_works hremove ⟨rfl, rfl, rfl, fun _ => rfl⟩).bind fun s1 h1 => .ok (h1.1.note rfl)

end Found

theorem checkFound_wf (i : Nat) (h : s.Wf conf) (hname : name ∈ s.files) :
    Post (State.Wf conf) (checkFound conf name i s) := by
  refine (noteFound_works conf name s i).bind fun r hr => ?_
  apply Post.ite
  · exact fun _ => reopen_wf conf name (hr.1.wf h) (hr.2 ▸ hname)
  · exact fun _ => .ok (hr.1.wf h)

theorem checkFile_wf (h : s.Wf conf) (hname : name ∈ s.files) :
    Post (State.Wf conf) (checkFile conf name s) := by
  have hblack := (inputBlacklist_works conf name s).mono fun _ h' => h'.wf h
  apply Post.ite
  · exact fun _ => .ok h
  intro _
  apply Post.ite
  · intro _
    refine (checkClose_wf conf h).bind fun r hr => ?_
    apply Post.ite
    · exact fun _ => inputOpen_wf conf name false true hr.1 (hr.2 ▸ hname)
    · exact fun _ => .ok hr.1
  · intro _
    split
    · exact checkFound_wf conf name _ h hname
    · exact hblack
    apply Post.ite
    · exact fun _ => hblack
    · exact fun _ => (checkGone_works conf name s).mono fun _ h' => h'.wf h

theorem dropDupe_wf (h : s.Wf conf) :
    Post (fun s' => s'.Wf conf ∧ ∀ n ∈ s'.files, n ∈ s.files) (dropDupe conf name s) := by
  unfold dropDupe
  split
  · exact .ok ⟨h, fun _ => id⟩
  · next dupe _ =>
    refine ((dropFile_works conf dupe s).and (dropFile_only conf dupe s)).mono fun s1 h1 =>
      ⟨h1.1.wf h, fun n hn => ?_⟩
    rw [h1.2.files] at hn
    exact filter_subset s.files dupe n hn

variable {conf} in
theorem addFile_new_wf {f : FileInput ι} (hf : f.input = none) (h : s.Wf conf) (hname : name ∉ s.files) :
    State.Wf conf { s.setFile name f with files := s.files ++ [name] } := by
  refine ⟨⟨h.nodup, fun n hn => mem_append_left _ (h.known n hn), h.num, h.current, fun n => ?_⟩, h.bound⟩
  by_cases heq : n = name
  · have hclosed : n ∉ s.open_files := fun hopen => hname (heq ▸ h.known n hopen)
    simpa [State.setFile, heq, hf] using heq ▸ hclosed
  · simpa [State.setFile, heq] using h.inputs n

theorem addNew_wf (readfromlast : Bool) (h : s.Wf conf) (hname : name ∉ s.files) :
    Post (State.Wf conf) (addNew conf name readfromlast s) := by
  refine (dropDupe_wf conf name h).bind fun s1 h1 => ?_
  have hadd := addFile_new_wf name (f := .new (newPos conf name s)
    (savedNumber conf s name)) rfl h1.1 fun hin => hname (h1.2 name hin)
  refine (checkClose_wf conf hadd).bind fun r2 hr2 => inputOpen_wf conf name readfromlast _ hr2.1 ?_
  rw [hr2.2]
  simp

theorem dropOthers_wf (names : List Name) (h : s.Wf conf) :
    Post (State.Wf conf) (dropOthers conf name names s) := by
  induction names generalizing s with
  | nil => exact .ok h
  | cons n names ih =>
    apply Post.ite
    · exact fun _ => (dropFile_works conf n s).bind fun s1 h1 => ih (h1.wf h)
    · exact fun _ => ih h

theorem addFile_wf (readfromlast single : Bool) (h : s.Wf conf) :
    Post (State.Wf conf) (addFile conf name readfromlast single s) := by
  have hwild : State.Wf conf { s with wildcard := !single } := h.keeps ⟨rfl, rfl, rfl, fun _ => rfl⟩ rfl
  have hadd : Post (State.Wf conf) (addUnknown conf name readfromlast { s with wildcard := !single }) := by
    apply Post.ite
    · exact fun _ => .ok hwild
    · exact fun hname => addNew_wf conf name readfromlast hwild hname
  refine hadd.bind fun s1 h1 => ?_
  apply Post.ite
  · exact fun _ => dropOthers_wf conf name _ h1
  · exact fun _ => .ok h1

end Step

/-! ### Reading -/

/-- One turn of the loop of `im_file_read`: the file is edited and saved, left for the next one, and
closed. -/
inductive Reading (conf : Conf ι) (name : Name) (s : State ι) : State ι → Prop where
  | refl : Reading conf name s s
  | edits {s1 s2 : State ι} (h : Reading conf name s s1) (hs2 : Edits name s1 s2) : Reading conf name s s2
  | save {s1 : State ι} {key : Name} (h : Reading conf name s s1)
    (hkey : key = name ∨ key = countKey name) (value : Int64) :
      Reading conf name s (s1.cacheSet key value)
  | next {s1 : State ι} (h : Reading conf name s s1) :
      Reading conf name s { s1 with currsrc := nextFile s1.open_files name }
  | close {s1 s2 : State ι} (h : Reading conf name s s1) (hs2 : inputClose conf name s1 = .ok s2) :
    Reading conf name s s2

section Reading

variable (conf : Conf ι) (name : Name) {s s1 : State ι}

theorem readMore_reading (h : Reading conf name s s1) :
    Post (fun r => Reading conf name s r.1) (readMore conf name s1) := by
  refine (getFilepos_edits conf name s1).bind fun s2 h2 => ?_
  have hsaved := ((h.edits h2).save (.inl rfl) (asInt (s2.file name).filepos)).save (.inr rfl)
    (s2.file name).current_line_number
  refine (fillBuffer_edits conf name _).bind fun r hr => ?_
  obtain ⟨s3, got_eof⟩ := r
  dsimp only
  split
  · exact .ok (hsaved.edits hr)
  · next hopen => exact (callReader_edits name s3 _ hopen).bind fun r' hr' => .ok ((hsaved.edits hr).edits hr')

theorem readRecord_reading (s : State ι) :
    Post (fun r => Reading conf name s r.1) (readRecord conf name s) := by
  unfold readRecord
  split
  · exact .error _
  next hopen =>
  refine (callReader_edits name s _ hopen).bind fun r hr => ?_
  have hread : Reading conf name s r.1 := .edits .refl hr
  apply Post.ite
  · exact fun _ => .ok hread
  · exact fun _ => readMore_reading conf name hread

theorem countEof_edits (s : State ι) : Edits name s (countEof name s) := by
  refine .file .refl ?_ ?_
  · dsimp only
    split <;> split <;> rfl
  · dsimp only
    split <;> split <;> rfl

theorem idleFile_reading (h : Reading conf name s s1) :
    Post (Reading conf name s) (idleFile conf name s1) := by
  have hcount := h.edits (countEof_edits name s1)
  have hflush : Post (Reading conf name s) (flushIdle conf name (countEof name s1)) := by
    apply Post.ite
    · exact fun _ => (flushInput_edits conf name _).mono fun s2 h2 => hcount.edits h2
    · exact fun _ => .ok hcount
  refine hflush.bind fun s2 h2 => ?_
  apply Post.ite
  · exact fun _ s3 h3 => h2.next.close h3
  · exact fun _ => .ok h2.next

theorem readTurn_reading (s : State ι) : Post (Reading conf name s) (readTurn conf name s) := by
  refine (readRecord_reading conf name s).bind fun r hr => ?_
  obtain ⟨s1, got_data, got_eof⟩ := r
  apply Post.ite
  · intro _
    apply Post.ite
    · exact fun _ => .ok hr
    · exact fun _ => idleFile_reading conf name hr
  · exact fun _ => .ok (hr.edits (.file .refl rfl rfl))

variable {conf name}

/-- Reading a file leaves the hash alone. -/
theorem Reading.works (h : Reading conf name s s1) : Works conf name s s1 ∧ s1.files = s.files := by
  induction h with
  | refl => exact ⟨.refl conf name s, rfl⟩
  | edits _ hs2 ih => exact ⟨ih.1.trans (.keeps hs2.only.beside hs2.links hs2.only.files),
    hs2.only.files.trans ih.2⟩
  | save _ hkey value ih => exact ⟨ih.1.cacheSet hkey value, ih.2⟩
  | next _ ih =>
    refine ⟨ih.1.trans ⟨((Only.refl name _).links _ _ _).beside, Nat.le_refl _, fun hs => ?_⟩, ih.2⟩
    exact ⟨⟨hs.nodup, hs.known, hs.num, fun n hn => nextFile_mem hn, hs.inputs⟩, hs.bound⟩
  | close _ hs2 ih =>
    obtain ⟨hclose, hfiles⟩ := inputClose_works (.refl name _) (.refl _) _ hs2
    exact ⟨ih.1.trans hclose, hfiles.trans ih.2⟩

end Reading

/-! ### Stopping -/

section Step

variable (conf : Conf ι) (name : Name) {s : State ι}

/-- The loop of `im_file_stop` closes the files it is given. -/
theorem closeAll_linked {L : List Name} (names : List Name) (h : Linked L s) :
    Post (Linked (L.filter (· ∉ names))) (closeAll conf names s) := by
  induction names generalizing L s with
  | nil => exact .ok (h.mono fun n hn => by simpa using hn)
  | cons name names ih =>
    refine (getFilepos_edits conf name s).bind fun s1 h1 => ?_
    refine (inputClose_linked conf name (h.keeps h1.links)).bind fun s2 h2 =>
      (ih h2).mono fun s3 h3 => h3.mono fun n hn => ?_
    simpa [and_assoc, and_comm] using hn

/-- With SavePos each file has two entries in the cache, and the rest is as it was. -/
theorem saveFiles_saved (hsave : conf.savepos = true) (names : List Name) (s : State ι) :
    ∃ cache, names.foldl (fun s name => saveFile conf name s) s = { s with cache := cache } ∧ ∀ n,
      ((∀ m ∈ names, countKey m ≠ n) →
        cache n = if n ∈ names then some (asInt (s.file n).filepos) else s.cache n) ∧
      ((∀ m ∈ names, m ≠ countKey n) →
        cache (countKey n) = if n ∈ names then some (s.file n).current_line_number else s.cache
        (countKey n)) := by
  induction names generalizing s with
  | nil => exact ⟨s.cache, rfl, fun n => ⟨fun _ => rfl, fun _ => rfl⟩⟩
  | cons name names ih =>
    have hsaved : saveFile conf name s =
        (s.cacheSet name (asInt (s.file name).filepos)).cacheSet (countKey name)
        (s.file name).current_line_number :=
      if_pos hsave
    obtain ⟨cache, hfold, hcache⟩ := ih (saveFile conf name s)
    refine ⟨cache, by rw [foldl_cons, hfold, hsaved]; rfl, fun n => ⟨fun hkeys => ?_, fun hkeys => ?_⟩⟩
    · obtain ⟨hkey, hkeys⟩ := forall_mem_cons.mp hkeys
      rw [(hcache n).1 hkeys, hsaved]
      simp only [State.cacheSet, if_neg hkey.symm, mem_cons]
      by_cases heq : n = name <;> simp [heq]
    · obtain ⟨hkey, hkeys⟩ := forall_mem_cons.mp hkeys
      rw [(hcache n).2 hkeys, hsaved]
      have hcount : countKey n = countKey name ↔ n = name := ⟨append_cancel_right, congrArg countKey⟩
      by_cases heq : n = name <;> simp [State.cacheSet, heq, hkey.symm, hcount]

/-- The file that is saved last under this key: its position if the key is its name, and else the
number of its last record. -/
def lastSaver (files : List Name) (key : Name) : Option Name :=
  files.reverse.find? fun m => m = key ∨ countKey m = key

theorem saveFiles_last (hsave : conf.savepos = true) (names : List Name) (s : State ι)
    (key : Name) : (names.foldl (fun s name => saveFile conf name s) s).cache key =
      match lastSaver names key with
      | none => s.cache key
      | some m => some (if m = key then asInt (s.file m).filepos else (s.file m).current_line_number) := by
  induction names using reverseRecOn with
  | nil => rfl
  | append_singleton names m ih =>
    obtain ⟨cache, hfold, -⟩ := saveFiles_saved conf hsave names s
    have hne := ne_countKey m
    rw [foldl_append, foldl_cons, foldl_nil, saveFile, if_pos hsave]
    rw [lastSaver, reverse_append, reverse_singleton, singleton_append, find?_cons]
    by_cases hname : m = key
    · subst hname
      simp [State.cacheSet, hne, hfold]
    · by_cases hcount : countKey m = key
      · subst hcount
        simp [State.cacheSet, hne, hfold]
      · have hkeys : ¬ key = countKey m ∧ ¬ key = m := ⟨fun h => hcount h.symm, fun h => hname h.symm⟩
        simpa [State.cacheSet, hname, hcount, hkeys, lastSaver] using ih

theorem closeAll_files (names : List Name) (s : State ι) :
    Post (fun s' : State ι => s'.files = s.files) (closeAll conf names s) := by
  induction names generalizing s with
  | nil => exact .ok rfl
  | cons name names ih =>
    refine (getFilepos_edits conf name s).bind fun s1 h1 => (inputClose_only conf name s1).bind fun s2 h2 => ?_
    exact (ih s2).mono fun s3 h3 => h3.trans (h2.files.trans h1.only.files)

theorem saveFiles_forgotten (hsave : ¬ conf.savepos = true) (names : List Name) (s : State ι) :
    names.foldl (fun s name => saveFile conf name s) s = { s with out := s.out ++ names.map .forgotten } := by
  induction names generalizing s with
  | nil => simp
  | cons name names ih =>
    rw [foldl_cons, ih, saveFile, if_neg hsave]
    simp [State.note]

theorem saveFiles_links (names : List Name) (s : State ι) :
    KeepsLinks s (names.foldl (fun s name => saveFile conf name s) s) := by
  by_cases hsave : conf.savepos = true
  · obtain ⟨cache, hfold, -⟩ := saveFiles_saved conf hsave names s
    rw [hfold]
    exact ⟨rfl, rfl, rfl, fun _ => rfl⟩
  · rw [saveFiles_forgotten conf hsave]
    exact ⟨rfl, rfl, rfl, fun _ => rfl⟩

theorem stop_wf (h : s.Wf conf) : Post (State.Wf conf) (stop conf s) := by
  have hopen : Linked s.open_files s := ⟨h.nodup, fun _ => id, h.num, h.current, h.inputs⟩
  refine (closeAll_linked conf s.open_files hopen).bind fun s1 h1 => .ok ?_
  have h2 : Linked [] _ := (h1.keeps (saveFiles_links conf s1.files s1)).mono fun n hn => by simp at hn
  refine ⟨⟨h2.nodup, h2.known, h2.num, h2.current, h2.inputs⟩, ?_⟩
  rw [eq_nil_iff_forall_not_mem.mpr fun n hn => not_mem_nil (h2.known n hn)]
  exact Nat.zero_le _

/-- Every event leaves the open files in the hash. -/
theorem step_wf (h : s.Wf conf) (e : Event) : Post (State.Wf conf) (s.step conf e) := by
  cases e with
  | disk disk => exact .ok (h.keeps ⟨rfl, rfl, rfl, fun _ => rfl⟩ rfl)
  | readFirst =>
    refine .ok ?_
    split
    · exact ⟨⟨h.nodup, h.known, h.num, fun n hn => mem_of_mem_head? hn, h.inputs⟩, h.bound⟩
    · exact h
  | readTurn =>
    simp only [State.step]
    split
    · exact .ok h
    · exact (readTurn_reading conf _ s).mono fun s1 h1 => h1.works.1.wf h
  | checkFile name =>
    apply Post.ite
    · exact fun hname => checkFile_wf conf name h hname
    · exact fun _ => .ok h
  | addFile name readfromlast single => exact addFile_wf conf name readfromlast single h
  | stop => exact stop_wf conf h

theorem start_wf (disk : Disk) : (State.start disk : State ι).Wf conf :=
  ⟨⟨nodup_nil, nofun, rfl, nofun, fun n => by simp [State.start, FileInput.new]⟩, Nat.zero_le _⟩

end Step

/-- input/file/im_file.c:236-244, and 46-80 behind a failure of `apr_file_open`: the file is put
into the list and counted, and the close, which finds `desc.f` and `inputfunc` still NULL, takes it
out again. -/
def failedOpen (name : Name) (s : State ι) : State ι :=
  let s := { s with open_files := s.open_files ++ [name], num_open_files := s.num_open_files + 1 }
  let s := if s.currsrc = some name then { s with currsrc := nextFile s.open_files name } else s
  { s with open_files := s.open_files.filter (· ≠ name), num_open_files := s.num_open_files - 1 }

/-- So `inputOpen` need not show it. -/
theorem failedOpen_eq {L : List Name} {s : State ι} {name : Name} (h : Linked L s)
    (hclosed : (s.file name).input = none) :
    failedOpen name s = s := by
  have hname := h.not_mem hclosed
  have hcurr : s.currsrc ≠ some name := fun hc => hname (h.current name hc)
  have hfilter : s.open_files.filter (· ≠ name) = s.open_files := filter_eq_self.mpr fun n hn => by
    simpa using fun heq : n = name => hname (heq ▸ hn)
  simp only [failedOpen, if_neg hcurr, filter_append, hfilter]
  simp

/-- In every state between two events the files with an input are those in the list, they are
counted, there are at most ActiveFiles, and the file that is read from is one of them; and a failed
open leaves all that as it was. -/
theorem open_files_counted (conf : Conf ι) (disk : Disk) (events : List Event) :
    Always (State.step conf) (fun s => (∀ n, (s.file n).input.isSome ↔ n ∈ s.open_files) ∧
      s.num_open_files = s.open_files.length ∧ s.num_open_files ≤ conf.active_files ∧
      (∀ n, s.currsrc = some n → n ∈ s.open_files) ∧ ∀ n, (s.file n).input = none →
      failedOpen n s = s) (State.start disk) events := by
  have hgood : Always (State.step conf) (State.Wf conf) (State.start disk) events :=
    always_of_step (fun s e s' h _ hs' => step_wf conf h e s' hs') (start_wf conf disk)
    (meets_true events _).allSteps
  refine hgood.mono fun s h =>
    ⟨fun n => (h.inputs n).symm, h.num, ?_, h.current, fun n hn => failedOpen_eq h.toLinked hn⟩
  rw [h.num]
  exact Int.ofNat_le.mpr h.bound

/-! ## The saved position -/

/-- The cast to `int` keeps the positions below 2 GiB. -/
theorem asInt_eq_iff {n : Int} (h : 0 ≤ n) : (asInt n).toInt = n ↔ n < 2 ^ 31 := by
  rw [asInt, Int32.toInt_toInt64, Int32.toInt_ofInt]
  show n.bmod (2 ^ 32) = n ↔ _
  constructor
  · intro heq
    have := Int.bmod_lt (x := n) (show 0 < 2 ^ 32 by decide)
    omega
  · exact fun hlt => Int.bmod_eq_of_le (by omega) (by omega)

section SavedPos

variable (conf : Conf ι) (hsave : conf.savepos = true) (name : Name) (s : State ι)
include hsave

/-- The position that is read back is the one that `im_file_stop` saved exactly if it is below 2 GiB
and no other file is saved under the same key behind it, or its number is this position; and
`im_file_read` saves the position of its file if it is below 2 GiB, and overwrites the one of the
file whose name is its second key. -/
theorem saved_position_iff :
    (∀ s', stop conf s = .ok s' → name ∈ s.files → 0 ≤ (s'.file name).filepos →
      (savedPos conf s' name = (s'.file name).filepos ↔
        (lastSaver s.files name = some name ∧ (s'.file name).filepos < 2 ^ 31) ∨
        ∃ m, lastSaver s.files name = some m ∧ countKey m = name ∧
          (s'.file m).current_line_number.toInt = (s'.file name).filepos)) ∧
    ∀ o, (s.file name).input = some o → Post (fun r : State ι × Bool × Bool =>
      (savedPos conf r.1 name = position conf o ↔ position conf o < 2 ^ 31) ∧
      ∀ m, m ≠ name → (savedPos conf r.1 m = savedPos conf s m ↔
        (countKey name = m → savedPos conf s m = (s.file name).current_line_number.toInt)))
      (readMore conf name s) := by
  constructor
  · intro s' hs' hname h0
    obtain ⟨s1, h1, hs'⟩ := bind_eq_ok.mp hs'
    obtain ⟨cache, hfold, -⟩ := saveFiles_saved conf hsave s1.files s1
    have hlast := saveFiles_last conf hsave s1.files s1 name
    rw [hfold] at hlast
    simp only [hfold] at hs'
    cases hs'
    rw [savedPos, if_pos hsave]
    rw [hlast, closeAll_files conf _ s s1 h1]
    cases hsaver : lastSaver s.files name with
    | none => simpa using find?_eq_none.mp hsaver name (by simpa using hname)
    | some m =>
      have hm : m = name ∨ countKey m = name := by simpa using find?_some hsaver
      by_cases heq : m = name
      · subst heq
        simp [asInt_eq_iff h0, (ne_countKey m).symm]
      · simp [heq, hm.resolve_left heq]
  · intro o ho
    have h0 : 0 ≤ position conf o := by
      unfold position
      split <;> omega
    have hsaved : ∀ (s' : State ι) (value : Int64), value = (s.file name).current_line_number →
        s'.cache = ((s.cacheSet name (asInt (position conf o))).cacheSet
        (countKey name) value).cache → (savedPos conf s' name = position conf o ↔
        position conf o < 2 ^ 31) ∧ ∀ m, m ≠ name → (savedPos conf s' m = savedPos conf s m ↔
          (countKey name = m → savedPos conf s m = (s.file name).current_line_number.toInt)) := by
      rintro s' _ rfl hs'
      simp only [savedPos, if_pos hsave, hs']
      refine ⟨by simp [State.cacheSet, ne_countKey, asInt_eq_iff h0], fun m hm => ?_⟩
      by_cases hkey : m = countKey name
      · simp [State.cacheSet, hkey, eq_comm]
      · simp [State.cacheSet, hkey, hm, Ne.symm hkey]
    simp only [readMore, getFilepos, ho, pure_eq, ok_bind, State.setFile, if_true]
    refine (fillBuffer_edits conf name _).bind fun r hr => ?_
    have hcache := hr.only.cache
    obtain ⟨s1, got_eof⟩ := r
    split
    · exact .ok (hsaved s1 _ (by simp [State.cacheSet]) hcache)
    · next hopen =>
      refine (callReader_edits name s1 _ hopen).bind fun r' hr' => .ok ?_
      exact hsaved _ _ (by simp [State.cacheSet]) (hr'.only.cache.trans hcache)

end SavedPos

/-- The first line was read. -/
def sampleRead : State Input :=
  let s := State.start (sampleDisk 1 (ascii "x\ny\n"))
  (run (State.step sampleConf) s [.addFile (ascii "a") false true, .readFirst, .readTurn]).toOption.getD s

theorem saved_position_line :
    ∃ s', stop sampleConf sampleRead = .ok s' ∧ savedPos sampleConf s' (ascii "a") = 2 :=
  ⟨_, rfl, ((saved_position_iff sampleConf rfl (ascii "a") sampleRead).1 _ rfl (by decide)
    (by decide)).mpr (.inl ⟨rfl, by decide⟩)⟩

/-- A file is opened at its end, and the module is stopped. -/
theorem stop_at_end (data : Bytes) : (run (State.step sampleConf) (State.start (sampleDisk 1 data))
      [.addFile (ascii "a") true true, .stop]).map (fun s => savedPos sampleConf s (ascii "a")) =
    .ok (asInt data.length).toInt := by
  have hadd : ∃ s : State Input,
    addFile sampleConf (ascii "a") true true (State.start (sampleDisk 1 data)) = .ok s ∧
      s.files = [ascii "a"] ∧ s.open_files = [ascii "a"] ∧ s.num_open_files = 1 ∧ s.currsrc = none ∧
      (s.file (ascii "a")).input = some ⟨Input.fresh (replicate 8 0), 1, data.length⟩ := by
    simp [State.start, sampleDisk, addFile, addUnknown, addNew, savedPos, newPos, dupeOf, dropDupe,
      sampleConf, State.setFile, checkClose, inputOpen, blacklisted, FileInput.new, openFile,
      statInput, updateInfo, startPos,
      Disk.size, dropOthers, lineInput]
  obtain ⟨s, hs, hfiles, hopen, hnum, hcurr, hinput⟩ := hadd
  have hstop : ∃ s' : State Input, stop sampleConf s = .ok s' ∧
    s'.cache (ascii "a") = some (asInt data.length) := by
    simp [stop, hopen, closeAll, getFilepos, hinput, inputClose, hcurr, flushInput, State.setFile,
      State.setInput,
      hnum, hfiles, saveFile, sampleConf, State.cacheSet, position, lineInput, Input.fresh, ne_countKey]
  obtain ⟨s', hs', hcache⟩ := hstop
  rw [run_cons, State.step, hs, ok_bind, run_cons, State.step, hs', ok_bind]
  show Except.ok (savedPos sampleConf s' (ascii "a")) = _
  rw [savedPos, hcache]
  rfl

/-- The saved position of a file of 3 GiB, read from its end, is negative; and the position of a
file `aCount` is overwritten with the number of the file `a`. -/
theorem saved_position_lost :
    (run (State.step sampleConf) (State.start (sampleDisk 1 (replicate (3 * 2 ^ 30) 0)))
      [.addFile (ascii "a") true true, .stop]).map (fun s => savedPos sampleConf s (ascii "a")) =
        .ok (-1073741824) ∧
    (run (State.step sampleConf)
      (State.start { sampleDisk 1 (ascii "x\n") with entry := fun n => .inode n.length })
      [.addFile (ascii "aCount") true false, .addFile (ascii "a") true false, .stop]).map
        (fun s => ((s.file (ascii "aCount")).filepos, savedPos sampleConf s (ascii "aCount"))) =
          .ok (2, 0) := by
  refine ⟨?_, rfl⟩
  rw [stop_at_end, length_replicate]
  rfl

/-! ## A failing file -/

/-- input/file/im_file.c:186-206 with 83-92 and 39-66, where seeking in the file fails: it is
blacklisted, so it is closed, and the close asks for the position again; `depth` bounds the
calls. -/
def failedSeek (conf : Conf ι) (name : Name) : Nat → State ι → Res (State ι)
  | 0, _ => Res.hang
  | depth + 1, s => do
    let s ← flushInput conf name (leave name s)
    match (s.file name).input with
    | none => return s
    | some _ => failedSeek conf name depth s

theorem failedSeek_ne_ok (conf : Conf ι) (name : Name) (depth : Nat) :
    ∀ s : State ι, (s.file name).input.isSome → ∀ s', failedSeek conf name depth s ≠ .ok s' := by
  induction depth with
  | zero => simp [failedSeek, Res.hang]
  | succ depth ih =>
    intro s hopen s' h
    obtain ⟨s1, hs1, h⟩ := bind_eq_ok.mp h
    have hopen1 : (s1.file name).input.isSome := by
      rw [(flushInput_edits conf name _ s1 hs1).links.inputs name]
      unfold leave
      split <;> exact hopen
    obtain ⟨o, ho⟩ := Option.isSome_iff_exists.mp hopen1
    rw [ho] at h
    exact ih s1 hopen1 s' h

/-- The position is asked for and the buffer filled within some depth of calls, the freed input is
not touched, and a turn leaves the other files as they were. -/
def KeepsOthers (conf : Conf ι) (seekable : Bool) (name : Name) (s : State ι) : Prop :=
  (∃ depth s', (if seekable then getFilepos conf name s else failedSeek conf name depth s) = .ok s')
    ∧ (∃ r, fillBuffer conf name s = .ok r) ∧ ∀ s', readTurn conf name s = .ok s' → Beside name s s'

/-- A file disturbs nothing exactly if neither seeking in it nor reading from it fails. -/
theorem failing_file_iff (conf : Conf ι) (seekable : Bool) (name : Name) {s : State ι} {o : Opened ι}
    (hopen : (s.file name).input = some o) (hroom : ∃ r, conf.inputfunc.room o.input = .ok r) :
    KeepsOthers conf seekable name s ↔ seekable = true ∧ s.disk.status o.inode ≠ .failed := by
  obtain ⟨r, hr⟩ := hroom
  constructor
  · rintro ⟨⟨depth, s1, hseek⟩, ⟨r1, hfill⟩, -⟩
    constructor
    · by_contra hs
      rw [if_neg hs] at hseek
      exact failedSeek_ne_ok conf name depth s (by simp [hopen]) s1 hseek
    · intro hfailed
      simp [fillBuffer, hopen, hr, hfailed, Res.fault] at hfill
  · rintro ⟨hseek, hread⟩
    refine ⟨⟨0, _, by simp only [if_pos hseek, getFilepos, hopen]; rfl⟩, ?_, fun s' hs' =>
      (readTurn_reading conf name s s' hs').works.1.beside⟩
    simp only [fillBuffer, hopen, hr, ok_bind]
    cases hstatus : s.disk.status o.inode with
    | ready =>
      dsimp only
      split <;> exact ⟨_, rfl⟩
    | again => exact ⟨_, rfl⟩
    | failed => exact absurd hstatus hread

/-- The file of `sampleDisk`, open. -/
def sampleOpen (status : ReadStatus) : State Input :=
  let s := State.start { sampleDisk 1 [] with status := fun _ => status }
  (addFile sampleConf (ascii "a") false true s).toOption.getD s

theorem failing_file_ready : KeepsOthers sampleConf true (ascii "a") (sampleOpen .ready) :=
  (failing_file_iff sampleConf true (ascii "a") (o := ⟨sampleConf.inputfunc.new, 1, 0⟩) rfl ⟨_,
    rfl⟩).mpr ⟨rfl, by decide⟩

/-- The read fails, and the freed input is written; the seek fails, and no depth of calls is
enough. -/
theorem failing_file_fault : readTurn sampleConf (ascii "a") (sampleOpen .failed) = Res.fault ∧
    ∀ depth s', failedSeek sampleConf (ascii "a") depth (sampleOpen .ready) ≠ .ok s' :=
  ⟨rfl, fun depth => failedSeek_ne_ok sampleConf (ascii "a") depth _ rfl⟩

end Nxlog.L4.ImFile
