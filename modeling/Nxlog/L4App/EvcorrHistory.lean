import Nxlog.Core.History
import Nxlog.L4App.EvcorrContext

/-!
# What a Suppressed and a Pair rule do over a whole history

A rule sees events with their times, which do not go back and stay far below 2^63, and cleanups in
between; what it does on an event is noted.
The Context is missing, or always a string or undefined; undefined is one more context.

* `suppressed_spacing`: in each context the executions of a Suppressed rule are an interval apart,
  and a match that is not executed is within the interval of the last one that was.
* `pair_matching`: an execution of a Pair rule answers a trigger of its context within the interval,
  and no trigger is answered twice.

The worlds of the events are independent of each other, so whatever an Exec or another rule does in
between is covered.
-/
namespace Nxlog.L4.Evcorr

open L1 Res List

/-! ## Contexts that are strings -/

section Text

variable {ω : Type}

def Textual (v : NxValue) : Prop := v.defined = TRUE → ∃ s, v.data = .string (some s)

def contextText (context : Option (ω → NxValue)) (world : ω) : Option Bytes :=
  context.bind fun expr => (expr world).string?.map (·.buf)

theorem contextSlot_text {context : Option (ω → NxValue)}
    (hkeyed : keyed = context.map fun expr w => contextKey (expr w))
    (h : ∀ expr ∈ context, ∀ w, Textual (expr w)) (world : ω) :
    contextSlot keyed world = .ok (contextText context world) := by
  subst hkeyed
  cases context with
  | none => rfl
  | some expr =>
    refine (contextSlot_iff expr world _).mpr ?_
    split
    · next hdef =>
      obtain ⟨s, hs⟩ := h expr rfl world hdef
      simp [hs, Keyed, image, contextText, NxValue.string?, hdef]
    · next hdef =>
      simp only [contextText, Option.bind_some, NxValue.string?, if_neg hdef]
      split <;> rfl

end Text

/-! ## Events and notes -/

inductive RuleEvent (ω : Type) where
  | log (timeval : Int) (world : ω)
  | clean

def RuleEvent.time {ω : Type} : RuleEvent ω → Option Int
  | .log timeval _ => some timeval
  | .clean => none

/-- The data of a rule, the time of the last event, and what was noted. -/
structure History (κ ν : Type) where
  data : Store κ Int
  timeval : Int
  notes : List ν

def History.start {κ ν : Type} : History κ ν := ⟨.fresh, 0, []⟩

structure Timely {ω : Type} (events : List (RuleEvent ω)) : Prop where
  positive : ∀ t ∈ events.filterMap RuleEvent.time, 0 < t
  order : (events.filterMap RuleEvent.time).Pairwise (· ≤ ·)

/-! ## Suppressed -/

structure Match (κ : Type) where
  time : Int
  context : Option κ
  executed : Bool

variable {interval t : Int}

section Suppressed

variable {ω κ : Type} [DecidableEq κ]

/-- An event for a Suppressed rule; `context` is the context of the event, for the note. -/
def Suppressed.step (conf : Suppressed ω κ) (context : ω → Option κ) (h : History κ (Match κ)) :
    RuleEvent ω → Res (History κ (Match κ))
  | .log timeval world => do
    let (data, _, executed, _) ← processSuppressed conf timeval world h.data
    let notes := if conf.cond world = .yes then h.notes ++ [⟨timeval, context world, executed⟩] else h.notes
    return ⟨data, timeval, notes⟩
  | .clean => return ⟨cleanSuppressed conf h.timeval h.data, h.timeval, h.notes⟩

def lastExecution (context : Option κ) (notes : List (Match κ)) : Option (Match κ) :=
  lastSuch (fun n => n.executed && decide (n.context = context)) notes

/-- A match is executed an interval behind every execution of its context, and if it is not then the
last one is less than an interval ago. -/
structure SpacedAt (interval : Int) (before : List (Match κ)) (m : Match κ) : Prop where
  apart : m.executed = true → ∀ n ∈ before, n.context = m.context → n.executed = true →
    endOf interval n.time ≤ m.time
  within : m.executed = false → ∃ n, lastExecution m.context before = some n ∧ m.time < endOf interval n.time

theorem lastExecution_snoc (context : Option κ) (notes : List (Match κ)) (m : Match κ) :
    lastExecution context (notes ++ [m]) =
      if m.executed = true ∧ m.context = context then some m else lastExecution context notes := by
  rw [lastExecution, lastSuch_snoc, ← lastExecution]
  simp

theorem lastExecution_some {context : Option κ} {notes : List (Match κ)} {n : Match κ}
    (h : lastExecution context notes = some n) : n ∈ notes ∧ n.executed = true ∧ n.context = context := by
  obtain ⟨hmem, hn⟩ := lastSuch_mem h
  exact ⟨hmem, by simpa using hn⟩

/-- What the data of a context are: the time of the last execution, unless a cleanup has removed it
when its interval was over. -/
def Remembers (interval timeval : Int) (last : Option (Match κ)) (matched : Int) : Prop :=
  match last with
  | none => matched = 0
  | some n => matched = n.time ∨ (matched = 0 ∧ endOf interval n.time ≤ timeval)

structure SuppressedInv (conf : Suppressed ω κ) (h : History κ (Match κ)) : Prop where
  spaced : Each (SpacedAt conf.interval) h.notes
  times : ∀ n ∈ h.notes, 0 < n.time ∧ n.time ≤ h.timeval
  latest : ∀ context last, lastExecution context h.notes = some last →
    ∀ n ∈ h.notes, n.context = context → n.executed = true → n.time ≤ last.time
  data : ∀ context, Remembers conf.interval h.timeval (lastExecution context h.notes) (h.data.value context)

theorem suppressedInv_start (conf : Suppressed ω κ) : SuppressedInv conf .start :=
  ⟨each_nil _, nofun, nofun, fun context => Store.fresh_value context⟩

variable {last : Option (Match κ)} {v : Int}

omit [DecidableEq κ] in
theorem Remembers.mono {T : Int} (h : Remembers interval T last v) (hT : T ≤ t) :
    Remembers interval t last v := by
  cases last with
  | none => exact h
  | some n => exact h.imp id fun hgone => ⟨hgone.1, Int.le_trans hgone.2 hT⟩

omit [DecidableEq κ] in
/-- If the rule is open, the interval of the last execution is over. -/
theorem Remembers.over {n : Match κ} (h : Remembers interval t (some n) v) (hn : 0 < n.time)
    (hopen : v = 0 ∨ endOf interval v ≤ t) : endOf interval n.time ≤ t := by
  rcases h with rfl | ⟨-, hover⟩
  · exact hopen.resolve_left (by omega)
  · exact hover

omit [DecidableEq κ] in
/-- If it is not, the last execution is the reason. -/
theorem Remembers.running (h : Remembers interval t last v)
    (hclosed : ¬ (v = 0 ∨ endOf interval v ≤ t)) : ∃ n, last = some n ∧ v = n.time ∧
    t < endOf interval n.time := by
  cases last with
  | none => exact absurd (.inl h) hclosed
  | some n =>
    rcases h with rfl | ⟨hv, -⟩
    · refine ⟨n, rfl, rfl, ?_⟩
      omega
    · exact absurd (.inl hv) hclosed

variable {conf : Suppressed ω κ} {context : ω → Option κ} {h : History κ (Match κ)}

variable (hinv : SuppressedInv conf h)
include hinv

theorem SuppressedInv.wait (ht : h.timeval ≤ t) :
    SuppressedInv conf ⟨h.data, t, h.notes⟩ := by
  refine ⟨hinv.spaced, fun n hn => ?_, hinv.latest, fun context => (hinv.data context).mono ht⟩
  obtain ⟨hpos, hle⟩ := hinv.times n hn
  exact ⟨hpos, Int.le_trans hle ht⟩

/-- A match, executed exactly if the rule is open. -/
theorem SuppressedInv.matched (ht : h.timeval = t) (hpos : 0 < t) (context : Option κ)
    (executed : Bool) (hexecuted : executed = true ↔ h.data.value context = 0 ∨
    endOf conf.interval (h.data.value context) ≤ t) : SuppressedInv conf ⟨h.data.put context
      (if executed then t else h.data.value context), t, h.notes ++ [⟨t, context, executed⟩]⟩ := by
  subst ht
  have hremembers := hinv.data context
  refine ⟨each_snoc hinv.spaced ⟨?_, ?_⟩, ?_, ?_, ?_⟩
  · intro hex n hn hcontext hnex
    cases hlast : lastExecution context h.notes with
    | none =>
      have hnot := lastSuch_none hlast n hn
      simp [hnex, show n.context = context from hcontext] at hnot
    | some last =>
      rw [hlast] at hremembers
      have hover := hremembers.over (hinv.times last (lastExecution_some hlast).1).1 (hexecuted.mp hex)
      have hle := hinv.latest context last hlast n hn hcontext hnex
      simp only [endOf] at hover ⊢
      omega
  · intro hex
    obtain ⟨last, hlast, -, hlt⟩ := hremembers.running fun hopen => by
      rw [hexecuted.mpr hopen] at hex
      cases hex
    exact ⟨last, hlast, hlt⟩
  · exact forall_mem_append.mpr ⟨hinv.times, forall_mem_singleton.mpr ⟨hpos, Int.le_refl _⟩⟩
  · intro context' last hlast n hn hcontext hnex
    rw [lastExecution_snoc] at hlast
    rcases mem_append.mp hn with hn | hn
    · split at hlast
      · rw [← Option.some_inj.mp hlast]
        exact (hinv.times n hn).2
      · exact hinv.latest context' last hlast n hn hcontext hnex
    · rw [mem_singleton.mp hn] at hcontext hnex ⊢
      rw [if_pos ⟨hnex, hcontext⟩] at hlast
      exact Int.le_of_eq (congrArg _ (Option.some_inj.mp hlast))
  · intro context'
    dsimp only
    rw [lastExecution_snoc, Store.value_put]
    by_cases hcontext : context' = context
    · subst hcontext
      cases executed with
      | true =>
        rw [if_pos ⟨rfl, rfl⟩, if_pos rfl]
        exact Or.inl rfl
      | false => simpa using hremembers
    · rw [if_neg hcontext, if_neg fun hsame => hcontext hsame.2.symm]
      exact hinv.data context'

/-- The cleanup removes what the rule needs no longer. -/
theorem SuppressedInv.clean :
    SuppressedInv conf ⟨cleanSuppressed conf h.timeval h.data, h.timeval, h.notes⟩ := by
  refine ⟨hinv.spaced, hinv.times, hinv.latest, fun context => ?_⟩
  have hremembers := hinv.data context
  simp only [cleanSuppressed, Store.value_clean]
  split
  · next hgone =>
    have hover : endOf conf.interval (h.data.value context) ≤ h.timeval := by simpa using hgone.2.2
    cases hlast : lastExecution context h.notes with
    | none => rfl
    | some n =>
      rw [hlast] at hremembers
      exact .inr ⟨rfl, hremembers.over (hinv.times n (lastExecution_some hlast).1).1 (.inr hover)⟩
  · exact hremembers

theorem suppressed_step (hslot : ∀ w, contextSlot conf.context w = .ok (context w))
    (event : RuleEvent ω) (hpos : ∀ t, event.time = some t → 0 < t)
    (horder : ∀ t, event.time = some t → h.timeval ≤ t) :
    ∃ h', conf.step context h event = .ok h' ∧ SuppressedInv conf h' ∧
    h'.timeval = event.time.getD h.timeval := by
  cases event with
  | clean => exact ⟨_, rfl, hinv.clean, rfl⟩
  | log t w =>
    have hwait := hinv.wait (horder t rfl)
    cases hcond : conf.cond w with
    | yes =>
      simp only [Suppressed.step, processSuppressed, hcond, if_true, atSlot, hslot]
      by_cases hopen : h.data.value (context w) = 0 ∨ endOf conf.interval (h.data.value (context w)) ≤ t
      · rw [Suppressed.act, if_pos hopen]
        exact ⟨_, rfl, hwait.matched rfl (hpos t rfl) (context w) true (iff_of_true rfl hopen), rfl⟩
      · rw [Suppressed.act, if_neg hopen]
        exact ⟨_, rfl, hwait.matched rfl (hpos t rfl) (context w) false
          (iff_of_false Bool.false_ne_true hopen), rfl⟩
    | no | raises =>
      simp only [Suppressed.step, processSuppressed, hcond]
      exact ⟨_, rfl, hwait, rfl⟩

end Suppressed

/-- **Suppressed spacing.** Whatever the events and cleanups, in each context the executions are an
interval apart, and a match that is not executed is less than an interval behind the last execution.
So the first match is executed. -/
theorem suppressed_spacing {ω : Type} (conf : Suppressed ω Bytes) (expr : Option (ω → NxValue))
    (hcontext : conf.context = expr.map fun e w => contextKey (e w)) (htext : ∀ e ∈ expr, ∀ w,
    Textual (e w)) (events : List (RuleEvent ω)) (htimes : Timely events) :
    ∃ h, run (conf.step (contextText expr)) .start events = .ok h ∧ Each (SpacedAt conf.interval) h.notes := by
  have hslot := contextSlot_text hcontext htext
  obtain ⟨h, hrun, hinv⟩ :=
    run_in_order RuleEvent.time History.timeval (A := fun event => ∀ t, event.time = some t → 0 < t)
    (fun h event hinv hpos horder => suppressed_step hinv hslot event hpos horder) (suppressedInv_start conf)
    (fun event hevent t ht => htimes.positive t (mem_filterMap.mpr ⟨event, hevent, ht⟩))
    (fun t ht => Int.le_of_lt (htimes.positive t ht)) htimes.order
  exact ⟨h, hrun, hinv.spaced⟩

def textOf (w : Bytes) : NxValue := ⟨TRUE, .string (some ⟨0, w⟩)⟩

/-- Every event matches, the Context is its text, and the Exec raises. -/
def sampleSuppressed : Suppressed Bytes Bytes :=
  ⟨fun _ => .yes, some fun w => contextKey (textOf w), 1, fun w => (w, true)⟩

theorem suppressed_spacing_sample :
    ∃ h, run (sampleSuppressed.step (contextText (some textOf))) .start
      [.log 5 [65], .log 6 [65], .log 7 [66], .clean, .log 1000005 [65]] = .ok h ∧
      Each (SpacedAt 1) h.notes :=
  suppressed_spacing sampleSuppressed (some textOf) rfl (fun e he w _ => ⟨⟨0, w⟩, by cases he; rfl⟩)
    [.log 5 [65], .log 6 [65], .log 7 [66], .clean, .log 1000005 [65]]
    ⟨by simp [filterMap, RuleEvent.time], by simp [filterMap, RuleEvent.time]⟩

/-! ## Pair -/

/-- An event, whether the TriggerCondition is TRUE for it, and whether the action was executed. -/
structure PairNote (κ : Type) where
  time : Int
  context : Option κ
  trigger : Bool
  executed : Bool

section Pair

variable {ω κ : Type}

def Paired.step [DecidableEq κ] (conf : Paired ω κ) (context : ω → Option κ)
    (h : History κ (PairNote κ)) : RuleEvent ω → Res (History κ (PairNote κ))
  | .log timeval world => do
    let (data, _, executed, _) ← processPair conf timeval world h.data
    let note := ⟨timeval, context world, decide (conf.triggercond world = .yes), executed⟩
    return ⟨data, timeval, h.notes ++ [note]⟩
  | .clean => return ⟨cleanPair conf h.timeval h.data, h.timeval, h.notes⟩

/-- The note at `i` is a trigger that nothing in its context has answered. -/
structure TriggerAt (notes : List (PairNote κ)) (context : Option κ) (i : Nat) (n : PairNote κ) : Prop where
  note : notes[i]? = some n
  same : n.context = context
  trigger : n.trigger = true
  executed : n.executed = false
  unanswered : ∀ j m, i < j → notes[j]? = some m → m.context = context → m.executed = false

/-- The execution at `j` answers the trigger at `i`: in the same context, in time, and with no
execution in between. -/
def Answers (interval : Int) (notes : List (PairNote κ)) (i j : Nat) : Prop :=
  ∃ n m, TriggerAt (notes.take j) m.context i n ∧ notes[j]? = some m ∧ m.executed = true ∧
    n.time ≤ m.time ∧ (interval = 0 ∨ m.time < endOf interval n.time)

variable {notes : List (PairNote κ)} {i : Nat}

theorem TriggerAt.snoc {context : Option κ} {n m : PairNote κ}
    (h : TriggerAt notes context i n) (hm : m.context = context → m.executed = false) :
    TriggerAt (notes ++ [m]) context i n := by
  refine ⟨getElem?_snoc.mpr (.inl h.note), h.same, h.trigger, h.executed, fun j k hj hk hcontext => ?_⟩
  rcases getElem?_snoc.mp hk with hk | ⟨-, rfl⟩
  · exact h.unanswered j k hj hk hcontext
  · exact hm hcontext

theorem Answers.snoc {j : Nat} (h : Answers interval notes i j)
    (m : PairNote κ) : Answers interval (notes ++ [m]) i j := by
  obtain ⟨n, k, htrigger, hk, hrest⟩ := h
  have hlt : j < notes.length := (List.getElem?_eq_some_iff.mp hk).1
  refine ⟨n, k, ?_, getElem?_snoc.mpr (.inl hk), hrest⟩
  rw [List.take_append_of_le_length (Nat.le_of_lt hlt)]
  exact htrigger

/-- No trigger is answered twice. -/
theorem Answers.unique {j j' : Nat} (h : Answers interval notes i j)
    (h' : Answers interval notes i j') : j = j' := by
  -- the earlier execution would stand between the trigger and the later one
  have hnot : ∀ {j j' : Nat}, Answers interval notes i j → Answers interval notes i j' → ¬ j < j' := by
    rintro j j' ⟨n, m, ht, hm, hex, -⟩ ⟨n', m', ht', hm', -⟩ hlt
    have hi : i < j := by
      have := (List.getElem?_eq_some_iff.mp ht.note).1
      rw [List.length_take] at this
      omega
    have hn : notes[i]? = some n := by
      have := ht.note
      rwa [getElem?_take_of_lt hi] at this
    have hn' : notes[i]? = some n' := by
      have := ht'.note
      rwa [getElem?_take_of_lt (Nat.lt_trans hi hlt)] at this
    have hcontext : m.context = m'.context := by
      rw [← ht.same, ← ht'.same, Option.some_inj.mp (hn.symm.trans hn')]
    have := ht'.unanswered j m hi (by rwa [getElem?_take_of_lt hlt]) hcontext
    rw [hex] at this
    cases this
  rcases Nat.lt_trichotomy j j' with hlt | heq | hlt
  · exact absurd hlt (hnot h h')
  · exact heq
  · exact absurd hlt (hnot h' h)

structure PairInv (conf : Paired ω κ) (h : History κ (PairNote κ)) : Prop where
  answered : ∀ (j : Nat) (m : PairNote κ), h.notes[j]? = some m → m.executed = true → ∃ i,
    Answers conf.interval h.notes i j
  times : ∀ (i : Nat) (n : PairNote κ), h.notes[i]? = some n → n.time ≤ h.timeval
  armed : ∀ context, 0 < h.data.value context → ∃ i n, TriggerAt h.notes context i n ∧
    n.time = h.data.value context

theorem pairInv_start (conf : Paired ω κ) : PairInv conf .start :=
  ⟨nofun, nofun, fun context h => by
    rw [History.start, Store.fresh_value] at h
    exact absurd h (Int.lt_irrefl 0)⟩

/-- What an event does to the data of its context. -/
inductive PairDone (conf : Paired ω κ) (t : Int) (world : ω) (matched : Int) : Outcome Int ω → Prop where
  | executed (rest : Ended) (world' : ω) (h : 0 < matched)
      (hin : conf.interval = 0 ∨ t < endOf conf.interval matched) :
      PairDone conf t world matched (0, world', true, rest)
  | kept (rest : Ended) : PairDone conf t world matched (matched, world, false, rest)
  | armed (h : conf.triggercond world = .yes) : PairDone conf t world matched (t, world, false, .next)

theorem pairAct_done (conf : Paired ω κ) (t : Int) (world : ω) (matched : Int) :
    ∃ r, conf.pairAct t world matched = .ok r ∧ PairDone conf t world matched r := by
  have htrigger : ∃ r, conf.trigger t world matched = .ok r ∧ PairDone conf t world matched r := by
    unfold Paired.trigger
    cases htrig : conf.triggercond world with
    | yes => exact ⟨_, rfl, .armed htrig⟩
    | no | raises => exact ⟨_, rfl, .kept _⟩
  unfold Paired.pairAct
  by_cases hpos : 0 < matched
  · rw [if_pos hpos]
    cases conf.requiredcond world with
    | yes =>
      by_cases hin : conf.interval = 0 ∨ t < endOf conf.interval matched
      · exact ⟨_, if_pos hin, .executed _ _ hpos hin⟩
      · exact ⟨_, if_neg hin, .kept _⟩
    | no => exact htrigger
    | raises => exact ⟨_, rfl, .kept _⟩
  · rw [if_neg hpos]
    exact htrigger

variable {conf : Paired ω κ} {h : History κ (PairNote κ)}

variable (hinv : PairInv conf h)
include hinv

theorem PairInv.wait (ht : h.timeval ≤ t) : PairInv conf ⟨h.data, t, h.notes⟩ :=
  ⟨hinv.answered, fun i n hn => Int.le_trans (hinv.times i n hn) ht, hinv.armed⟩

theorem PairInv.clean : PairInv conf ⟨cleanPair conf h.timeval h.data, h.timeval, h.notes⟩ := by
  refine ⟨hinv.answered, hinv.times, fun slot hpos => ?_⟩
  simp only [cleanPair, Store.value_clean] at hpos ⊢
  split
  · next hgone =>
    rw [if_pos hgone] at hpos
    exact absurd hpos (Int.lt_irrefl 0)
  · next hkept =>
    rw [if_neg hkept] at hpos
    exact hinv.armed slot hpos

variable [DecidableEq κ] {context : ω → Option κ}

/-- The data of the other contexts, behind an event of this one. -/
theorem PairInv.others {m : PairNote κ} {slot : Option κ} (matched : Int)
    (hne : slot ≠ m.context) (hpos : 0 < (h.data.put m.context matched).value slot) :
    ∃ i n, TriggerAt (h.notes ++ [m]) slot i n ∧ n.time = (h.data.put m.context matched).value slot := by
  rw [Store.value_put, if_neg hne] at hpos ⊢
  obtain ⟨i, n, htrigger, htime⟩ := hinv.armed slot hpos
  exact ⟨i, n, htrigger.snoc fun hsame => absurd hsame.symm hne, htime⟩

/-- An event, with what it does to the data of its context. -/
theorem PairInv.log (m : PairNote κ) (hm : m.time = h.timeval) (matched : Int)
    (hanswers : m.executed = true → ∃ i n, TriggerAt h.notes m.context i n ∧
      (conf.interval = 0 ∨ m.time < endOf conf.interval n.time))
    (harmed : 0 < matched → ∃ i n, TriggerAt (h.notes ++ [m]) m.context i n ∧ n.time = matched) :
    PairInv conf ⟨h.data.put m.context matched, h.timeval, h.notes ++ [m]⟩ := by
  refine ⟨fun j k hk hex => ?_, fun i n hn => ?_, fun slot hpos => ?_⟩
  · rcases getElem?_snoc.mp hk with hk | ⟨rfl, rfl⟩
    · obtain ⟨i, hi⟩ := hinv.answered j k hk hex
      exact ⟨i, hi.snoc m⟩
    · obtain ⟨i, n, htrigger, hin⟩ := hanswers hex
      refine ⟨i, n, k, ?_, hk, hex, hm ▸ hinv.times i n htrigger.note, hin⟩
      rw [take_left]
      exact htrigger
  · rcases getElem?_snoc.mp hn with hn | ⟨-, rfl⟩
    · exact hinv.times i n hn
    · exact Int.le_of_eq hm
  · by_cases hsame : slot = m.context
    · dsimp only at hpos ⊢
      rw [hsame, Store.value_put, if_pos rfl] at hpos ⊢
      exact harmed hpos
    · exact hinv.others matched hsame hpos

theorem pair_step (hslot : ∀ w, contextSlot conf.context w = .ok (context w))
    (event : RuleEvent ω) (horder : ∀ t, event.time = some t → h.timeval ≤ t) :
    ∃ h', conf.step context h event = .ok h' ∧ PairInv conf h' ∧ h'.timeval = event.time.getD h.timeval := by
  cases event with
  | clean => exact ⟨_, rfl, hinv.clean, rfl⟩
  | log t w =>
    have hwait := hinv.wait (horder t rfl)
    obtain ⟨⟨matched, world, executed, rest⟩, hact, hdone⟩ := pairAct_done conf t w (h.data.value (context w))
    simp only [Paired.step, processPair, atSlot, hslot, hact]
    refine ⟨_, rfl, hwait.log ⟨t, context w, decide (conf.triggercond w = .yes),
      executed⟩ rfl matched ?_ ?_, rfl⟩
    · intro hex
      cases hdone with
      | executed _ _ hpos hin =>
        obtain ⟨i, n, htrigger, htime⟩ := hwait.armed (context w) hpos
        exact ⟨i, n, htrigger, htime ▸ hin⟩
      | kept | armed => cases hex
    · intro hpos
      cases hdone with
      | executed => exact absurd hpos (Int.lt_irrefl 0)
      | kept =>
        obtain ⟨i, n, htrigger, htime⟩ := hwait.armed (context w) hpos
        exact ⟨i, n, htrigger.snoc fun _ => rfl, htime⟩
      | armed htrig =>
        -- the event itself is the trigger, and nothing is behind it yet
        refine ⟨h.notes.length, _, ⟨getElem?_snoc.mpr (.inr ⟨rfl, rfl⟩), rfl, decide_eq_true htrig,
          rfl, fun j k hj hk => ?_⟩, rfl⟩
        have := (List.getElem?_eq_some_iff.mp hk).1
        rw [List.length_append, List.length_singleton] at this
        dsimp only at this
        omega

end Pair

/-- **Pair matching.** Whatever the events and cleanups, every execution answers a trigger of its
context within the interval, with no execution in between, and no trigger is answered twice. -/
theorem pair_matching {ω : Type} (conf : Paired ω Bytes) (expr : Option (ω → NxValue))
    (hcontext : conf.context = expr.map fun e w => contextKey (e w)) (htext : ∀ e ∈ expr, ∀ w,
    Textual (e w)) (events : List (RuleEvent ω)) (htimes : Timely events) :
    ∃ h, run (conf.step (contextText expr)) .start events = .ok h ∧
      (∀ (j : Nat) (m : PairNote Bytes), h.notes[j]? = some m → m.executed = true → ∃ i,
        Answers conf.interval h.notes i j) ∧
      ∀ i j j', Answers conf.interval h.notes i j → Answers conf.interval h.notes i j' → j = j' := by
  have hslot := contextSlot_text hcontext htext
  obtain ⟨h, hrun, hinv⟩ := run_in_order RuleEvent.time History.timeval (A := fun _ => True)
    (fun h event hinv _ horder => pair_step hinv hslot event horder) (pairInv_start conf)
    (fun _ _ => trivial) (fun t ht => Int.le_of_lt (htimes.positive t ht)) htimes.order
  exact ⟨h, hrun, hinv.answered, fun i j j' => Answers.unique⟩

/-- A pair of the texts "A" and "B"; the condition for the latter raises for "C". -/
def samplePair : Paired Bytes Bytes :=
  ⟨fun w => if w = [65] then .yes else .no, fun w =>
    if w = [66] then .yes else if w = [67] then .raises else .no,
    none, 1, fun w => (w, false)⟩

theorem pair_matching_sample :
    ∃ h, run (samplePair.step (contextText none)) .start
      [.log 5 [65], .log 5 [67], .log 6 [66], .log 7 [66]] = .ok h ∧
      (∀ (j : Nat) (m : PairNote Bytes), h.notes[j]? = some m → m.executed = true → ∃ i,
        Answers 1 h.notes i j) ∧
      ∀ i j j', Answers 1 h.notes i j → Answers 1 h.notes i j' → j = j' :=
  pair_matching samplePair none rfl nofun [.log 5 [65], .log 5 [67], .log 6 [66], .log 7 [66]]
    ⟨by simp [RuleEvent.time], by simp [RuleEvent.time]⟩

end Nxlog.L4.Evcorr
