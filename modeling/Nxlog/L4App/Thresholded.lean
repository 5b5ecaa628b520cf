import Mathlib.Data.List.Induction
import Nxlog.Core.Run

/-!
# Thresholded rules of the event correlator (`processor/evcorr/pm_evcorr.c`)

A rule without Context keeps the times of the events that matched, in the order of the events, and
executes its action if there are enough of them. Times that have left the window are removed only
when the list could reach the threshold, or when its memory is about to be full.

`processThresholded` works on the memory of the list, where an access behind what is allocated is a
fault. `Matches` is the list itself, without its memory.

* `Matches.Covers`: what is not in the list any more has left the window.
* `thresholded_window`: the action is executed exactly if there are enough events in the window.
* `processThresholded_refines`: an access in bounds, and then what happens to the list, is that of
  `Matches`.
* `thresholded_in_bounds_iff`: the accesses are in bounds exactly as long as the memory is not made
  smaller.
* `memory_window`: the window, for the function on memory.

Times are `apr_time_t`, in microseconds. An interval is an `unsigned int` in the configuration file,
so adding it to a date does not overflow for the next 290,000 years.
-/
namespace Nxlog.L4.Evcorr
open Res List

def usecPerSec : Int := 1000000

def defaultWindowSize : Nat := 100

structure Window where
  threshold : Nat
  interval : Int

/-- The last time at which a match at `matched` counts. -/
def Window.until (w : Window) (matched : Int) : Int := matched + w.interval * usecPerSec

def Window.expired (w : Window) (timeval matched : Int) : Bool := w.until matched < timeval

/-! ## The list -/

structure Matches where
  times : List Int
  size : Nat

def Matches.empty : Matches := ⟨[], defaultWindowSize⟩

/-- processor/evcorr/pm_evcorr.c:377-402. -/
def Matches.prune (w : Window) (m : Matches) (timeval : Int) : Matches :=
  if m.times.length + 1 ≥ w.threshold ∨ m.times.length + 1 ≥ m.size then
    { m with times := m.times.dropWhile (w.expired timeval) }
  else m

/-- processor/evcorr/pm_evcorr.c:404-412. -/
def Matches.add (m : Matches) (timeval : Int) : Matches :=
  ⟨m.times ++ [timeval], if m.times.length + 1 ≥ m.size then m.size * 3 / 2 else m.size⟩

def Matches.matched (w : Window) (m : Matches) (timeval : Int) : Bool × Matches :=
  (decide (w.threshold ≤ ((m.prune w timeval).add timeval).times.length), (m.prune w timeval).add timeval)

structure Event where
  time : Int
  cond : Bool

def Matches.event (w : Window) (m : Matches) (e : Event) : Bool × Matches :=
  if e.cond then m.matched w e.time else (false, m)

def Matches.events (w : Window) : Matches → List Event → Matches
  | m, [] => m
  | m, e :: es => (m.event w e).2.events w es

/-! ## The window -/

section Window

variable {w : Window}

theorem Window.expired_iff {t m : Int} : w.expired t m = true ↔ w.until m < t := decide_eq_true_iff

theorem Window.not_expired_iff {t m : Int} : w.expired t m = false ↔ t ≤ w.until m := by
  rw [← Bool.not_eq_true, Window.expired_iff, Int.not_lt]

theorem Window.expired_mono {t t' m : Int} (h : t ≤ t') (hm : w.expired t m = true) :
    w.expired t' m = true := by
  rw [Window.expired_iff] at hm ⊢
  omega

theorem Window.expired_of_le {t m m' : Int} (h : m' ≤ m) (hm : w.expired t m = true) :
    w.expired t m' = true := by
  rw [Window.expired_iff] at hm ⊢
  unfold Window.until at hm ⊢
  omega

/-- In a list in order, the times in front that have left the window are all that have. -/
theorem dropWhile_expired {l : List Int} (t : Int) (h : l.Pairwise (· ≤ ·)) :
    l.dropWhile (w.expired t) = l.filter fun m => !w.expired t m := by
  induction l with
  | nil => rfl
  | cons m l ih =>
    rw [pairwise_cons] at h
    rw [dropWhile_cons, filter_cons]
    by_cases hm : w.expired t m = true
    · simp [hm, ih h.2]
    have hall : ∀ m' ∈ l, w.expired t m' = false := by
      intro m' hm'
      by_cases he : w.expired t m' = true
      · exact absurd (Window.expired_of_le (h.1 m' hm') he) hm
      · simpa using he
    have hfilter : l.filter (fun m => !w.expired t m) = l :=
      filter_eq_self.mpr fun m' hm' => by simp [hall m' hm']
    simp [hm, hfilter]

/-- The list has the end of all the matches so far; what is in front of it has left the window at
`t`. -/
def Matches.Covers (w : Window) (m : Matches) (t : Int) (all : List Int) : Prop :=
  ∃ gone, all = gone ++ m.times ∧ ∀ a ∈ gone, w.expired t a = true

variable {m : Matches} {t t' : Int} {all : List Int}

theorem Matches.Covers.mono (h : m.Covers w t all) (ht : t ≤ t') : m.Covers w t' all := by
  obtain ⟨gone, hall, hgone⟩ := h
  exact ⟨gone, hall, fun a ha => Window.expired_mono ht (hgone a ha)⟩

theorem Matches.Covers.prune (h : m.Covers w t all) : (m.prune w t).Covers w t all := by
  obtain ⟨gone, rfl, hgone⟩ := h
  unfold Matches.prune
  split
  · refine ⟨gone ++ m.times.takeWhile (w.expired t), ?_, ?_⟩
    · rw [append_assoc, takeWhile_append_dropWhile]
    · exact forall_mem_append.mpr ⟨hgone, all_eq_true.mp all_takeWhile⟩
  · exact ⟨gone, rfl, hgone⟩

theorem Matches.Covers.add (h : m.Covers w t all) (a : Int) : (m.add a).Covers w t (all ++ [a]) := by
  obtain ⟨gone, rfl, hgone⟩ := h
  exact ⟨gone, append_assoc gone m.times [a], hgone⟩

/-- What counts at `t` is counted in the list. -/
theorem Matches.Covers.live (h : m.Covers w t all) :
    (all.filter fun a => !w.expired t a) = m.times.filter fun a => !w.expired t a := by
  obtain ⟨gone, rfl, hgone⟩ := h
  have hnil : (gone.filter fun a => !w.expired t a) = [] :=
    filter_eq_nil_iff.mpr fun a ha => by simp [hgone a ha]
  rw [filter_append, hnil, nil_append]

/-- The action is executed exactly if there are enough matches that count. -/
theorem Matches.matched_iff (hsorted : m.times.Pairwise (· ≤ ·)) :
    (m.matched w t).1 = true ↔ w.threshold ≤ (m.times.filter fun a => !w.expired t a).length + 1 := by
  have hlen : ((m.prune w t).add t).times.length = (m.prune w t).times.length + 1 := by simp [Matches.add]
  simp only [Matches.matched, decide_eq_true_eq]
  rw [hlen]
  unfold Matches.prune
  split
  · rw [dropWhile_expired t hsorted]
  · next hfew =>
    -- there are not enough even with those that have left the window
    have hle := length_filter_le (fun a => !w.expired t a) m.times
    omega

end Window

def matchTimes (es : List Event) : List Int := (es.filter Event.cond).map Event.time

theorem matchTimes_append (es : List Event) (e : Event) :
    matchTimes (es ++ [e]) = matchTimes es ++ if e.cond then [e.time] else [] := by
  unfold matchTimes
  cases h : e.cond <;> simp [h]

theorem Matches.events_append (w : Window) (m : Matches) (es : List Event) (e : Event) :
    m.events w (es ++ [e]) = ((m.events w es).event w e).2 := by
  induction es generalizing m with
  | nil => rfl
  | cons e' es ih => exact ih _

variable {w : Window} {es : List Event}

/-- The list after any events in the order of their times. -/
theorem events_cover (hsorted : es.Pairwise fun a b => a.time ≤ b.time) {t : Int}
    (ht : ∀ e ∈ es, e.time ≤ t) : (Matches.empty.events w es).Covers w t (matchTimes es) := by
  induction es using reverseRecOn generalizing t with
  | nil => exact ⟨[], rfl, by simp⟩
  | append_singleton es e ih =>
    rw [pairwise_append] at hsorted
    have hbefore := ih hsorted.1 fun e' he' => hsorted.2.2 e' he' e mem_cons_self
    have hlast : e.time ≤ t := ht e (by simp)
    rw [Matches.events_append, matchTimes_append]
    unfold Matches.event
    cases hcond : e.cond with
    | false => simpa using hbefore.mono hlast
    | true => exact (hbefore.prune.add e.time).mono hlast

/-- The events in the window that ends with an event, without that event. -/
theorem length_window {t : Int} (ht : ∀ a ∈ es, a.time ≤ t) :
    (es.filter fun a => a.cond && decide (t - w.interval * usecPerSec ≤ a.time ∧
      a.time ≤ t)).length = ((matchTimes es).filter fun m => !w.expired t m).length := by
  unfold matchTimes
  rw [filter_map, length_map, filter_filter]
  congr 1
  refine filter_congr fun a ha => ?_
  rw [Bool.and_comm]
  congr 1
  rw [Bool.eq_iff_iff, decide_eq_true_iff, Function.comp, Bool.not_eq_true', Window.not_expired_iff]
  have := ht a ha
  unfold Window.until
  omega

/-- A rule without Context executes its action at an event exactly if the event matches and the
window that ends with it has enough events that matched. -/
theorem thresholded_window (w : Window) (hinterval : 0 ≤ w.interval) (es : List Event) (e : Event)
    (hsorted : (es ++ [e]).Pairwise fun a b => a.time ≤ b.time) :
    ((Matches.empty.events w es).event w e).1 = true ↔
      e.cond = true ∧ w.threshold ≤ ((es ++ [e]).filter fun a =>
        a.cond && decide (e.time - w.interval * usecPerSec ≤ a.time ∧ a.time ≤ e.time)).length := by
  rw [pairwise_append] at hsorted
  have hbefore : ∀ a ∈ es, a.time ≤ e.time := fun a ha => hsorted.2.2 a ha e mem_cons_self
  have hcover := events_cover (w := w) hsorted.1 hbefore
  unfold Matches.event
  cases hcond : e.cond with
  | false => simp
  | true =>
    have htimes : (Matches.empty.events w es).times.Pairwise (· ≤ ·) := by
      obtain ⟨gone, hall, -⟩ := hcover
      have : (matchTimes es).Pairwise (· ≤ ·) := pairwise_map.mpr (hsorted.1.filter _)
      rw [hall, pairwise_append] at this
      exact this.2.1
    have hself : e.time - w.interval * usecPerSec ≤ e.time := by
      unfold usecPerSec
      omega
    have hlast : ([e].filter fun a =>
        a.cond && decide (e.time - w.interval * usecPerSec ≤ a.time ∧ a.time ≤ e.time)).length = 1 := by
      rw [filter_cons_of_pos (by rw [hcond]; exact decide_eq_true ⟨hself, Int.le_refl _⟩)]
      rfl
    rw [if_pos rfl, Matches.matched_iff htimes, ← hcover.live, ← length_window hbefore,
      filter_append, length_append, hlast]
    exact (and_iff_right rfl).symm

/-- Three matches within ten seconds, the last one exactly ten seconds after the first. -/
theorem thresholded_window_edge :
    ((Matches.empty.events ⟨3, 10⟩ [⟨1000000, true⟩, ⟨5000000, true⟩, ⟨6000000, false⟩]).event ⟨3,
      10⟩ ⟨11000000, true⟩).1 = true :=
  (thresholded_window ⟨3, 10⟩ (by decide) [⟨1000000, true⟩, ⟨5000000, true⟩,
    ⟨6000000, false⟩] ⟨11000000, true⟩ (by decide)).mpr (by decide)

/-! ## The memory of the list -/

/-- `nx_pm_evcorr_rule_thresholded_data_t`. `matchlist` is the memory that was allocated. -/
structure MatchData where
  num_match : Nat
  matchlist_size : Nat
  matchlist : Option (List Int)
  deriving DecidableEq

def MatchData.empty : MatchData := ⟨0, 0, none⟩

def rdTime (mem : List Int) (i : Nat) : Res Int :=
  match mem[i]? with
  | some t => .ok t
  | none => Res.fault

def wrTime (mem : List Int) (i : Nat) (t : Int) : Res (List Int) :=
  if i < mem.length then .ok (mem.set i t) else Res.fault

/-- `memmove(mem, &(mem[i]), n * sizeof(apr_time_t))`. -/
def moveDown (mem : List Int) (i n : Nat) : Res (List Int) :=
  if i + n ≤ mem.length then .ok ((mem.drop i).take n ++ mem.drop n) else Res.fault

def malloc (n : Nat) : List Int := List.replicate n 0

def realloc (mem : List Int) (n : Nat) : List Int := mem.take n ++ malloc (n - mem.length)

/-- processor/evcorr/pm_evcorr.c:380-386: how many times at the front have left the window. -/
def scanExpired (w : Window) (timeval : Int) (mem : List Int) : Nat → Nat → Res Nat
  | 0, i => .ok i
  | n + 1, i => do
    let matched ← rdTime mem i
    if timeval ≤ w.until matched then return i else scanExpired w timeval mem n (i + 1)

/-- processor/evcorr/pm_evcorr.c:387-401: the times behind `i` are moved to the front. The memory is
made smaller, and `matchlist_size` stays as it is. -/
def dropFirst (d : MatchData) (mem : List Int) (i : Nat) : Res (MatchData × List Int) :=
  if 0 < i then do
    let mem ← moveDown mem i (d.num_match - i)
    Res.assert (i ≤ d.num_match) "thresholded->num_match >= i"
    let d := { d with num_match := d.num_match - i }
    if d.num_match < d.matchlist_size / 2 ∧ d.matchlist_size > defaultWindowSize then
      return (d, realloc mem (d.matchlist_size / 2))
    else return (d, mem)
  else return (d, mem)

/-- processor/evcorr/pm_evcorr.c:377-402. -/
def pruneMemory (w : Window) (timeval : Int) (d : MatchData) (mem : List Int) : Res (MatchData × List Int) :=
  if d.num_match + 1 ≥ w.threshold ∨ d.num_match + 1 ≥ d.matchlist_size then do
    let i ← scanExpired w timeval mem d.num_match 0
    dropFirst d mem i
  else return (d, mem)

/-- processor/evcorr/pm_evcorr.c:404-410: `matchlist_size` and the memory. -/
def grown (d : MatchData) (mem : List Int) : Nat × List Int :=
  if d.num_match + 1 ≥ d.matchlist_size then (d.matchlist_size * 3 / 2, realloc mem (d.matchlist_size * 3 / 2))
  else (d.matchlist_size, mem)

/-- processor/evcorr/pm_evcorr.c:404-412. -/
def addTime (timeval : Int) (d : MatchData) (mem : List Int) : Res MatchData := do
  let mem' ← wrTime (grown d mem).2 d.num_match timeval
  return ⟨d.num_match + 1, (grown d mem).1, some mem'⟩

/-- The memory that is there, or that of the first match. -/
def MatchData.opened (d : MatchData) : MatchData × List Int :=
  match d.matchlist with
  | some mem => (d, mem)
  | none => (⟨0, defaultWindowSize, none⟩, malloc defaultWindowSize)

/-- mirrors processor/evcorr/pm_evcorr.c:341-420 (`process_thresholded`) for an event that
matches. -/
def processThresholded (w : Window) (timeval : Int) (d : MatchData) : Res (Bool × MatchData) := do
  let (d, mem) ← pruneMemory w timeval d.opened.1 d.opened.2
  let d ← addTime timeval d mem
  return (decide (w.threshold ≤ d.num_match), d)

def MatchData.view (d : MatchData) : Matches :=
  match d.matchlist with
  | none => .empty
  | some mem => ⟨mem.take d.num_match, d.matchlist_size⟩

def MatchData.room (d : MatchData) : Nat := (d.matchlist.getD []).length

def Shrinks (w : Window) (timeval : Int) (d : MatchData) (mem : List Int) : Prop :=
  (d.num_match + 1 ≥ w.threshold ∨ d.num_match + 1 ≥ d.matchlist_size) ∧
    0 < ((mem.take d.num_match).takeWhile (w.expired timeval)).length ∧
    d.num_match - ((mem.take d.num_match).takeWhile (w.expired timeval)).length <
    d.matchlist_size / 2 ∧ defaultWindowSize < d.matchlist_size

instance (w : Window) (timeval : Int) (d : MatchData) (mem : List Int) :
    Decidable (Shrinks w timeval d mem) := by
  unfold Shrinks
  infer_instance

section Memory

variable {w : Window} {t : Int} {d d' : MatchData} {mem mem' : List Int}

theorem realloc_length (mem : List Int) (n : Nat) : (realloc mem n).length = n := by
  simp [realloc, malloc]
  omega

theorem take_realloc {n k : Nat} (hk : k ≤ n) (hmem : k ≤ mem.length) :
    (realloc mem n).take k = mem.take k := by
  rw [realloc, take_append_of_le_length (by rw [length_take]; omega), take_take, Nat.min_eq_left hk]

theorem take_wrTime {n : Nat} (h : n < mem.length) : (mem.set n t).take (n + 1) = mem.take n ++ [t] := by
  rw [set_eq_take_append_cons_drop, if_pos h, take_append, take_of_length_le (by rw [length_take]; omega)]
  simp [Nat.min_eq_left (Nat.le_of_lt h)]

theorem scanExpired_eq {n i : Nat} (h : i + n ≤ mem.length) :
    scanExpired w t mem n i = .ok (i + (((mem.drop i).take n).takeWhile (w.expired t)).length) := by
  induction n generalizing i with
  | zero => simp [scanExpired]
  | succ n ih =>
    have hi : i < mem.length := by omega
    have hrd : rdTime mem i = .ok mem[i] := by rw [rdTime, getElem?_eq_getElem hi]
    rw [scanExpired, hrd, ok_bind, drop_eq_getElem_cons hi, take_succ_cons, takeWhile_cons]
    by_cases hlive : t ≤ w.until mem[i]
    · rw [if_pos hlive, Window.not_expired_iff.mpr hlive]
      simp
    · have hexp : w.expired t mem[i] = true := Window.expired_iff.mpr (Int.not_le.mp hlive)
      rw [if_neg hlive, ih (by omega), if_pos hexp, length_cons]
      congr 1
      omega

theorem drop_takeWhile_length (p : Int → Bool) (l : List Int) : l.drop (l.takeWhile p).length =
    l.dropWhile p := by
  induction l with
  | nil => rfl
  | cons a l ih =>
    rw [takeWhile_cons, dropWhile_cons]
    split
    · simpa using ih
    · rfl

theorem dropFirst_eq {i : Nat} (hi : i ≤ d.num_match) (h : d.num_match ≤ mem.length) :
    ∃ mem', dropFirst d mem i = .ok ({ d with num_match := d.num_match - i }, mem') ∧
      mem'.take (d.num_match - i) = (mem.take d.num_match).drop i ∧
      (0 < i ∧ d.num_match - i < d.matchlist_size / 2 ∧ defaultWindowSize < d.matchlist_size →
        mem'.length = d.matchlist_size / 2) ∧
      (¬ (0 < i ∧ d.num_match - i < d.matchlist_size / 2 ∧ defaultWindowSize < d.matchlist_size) →
        mem'.length = mem.length) := by
  have hlist : (mem.take d.num_match).drop i = (mem.drop i).take (d.num_match - i) := drop_take
  unfold dropFirst
  by_cases hpos : 0 < i
  · have hmove : moveDown mem i (d.num_match - i) =
        .ok ((mem.take d.num_match).drop i ++ mem.drop (d.num_match - i)) := by
      rw [moveDown, if_pos (by omega), hlist]
    have hlen : ((mem.take d.num_match).drop i).length = d.num_match - i := by
      rw [length_drop, length_take]
      omega
    have htotal : ((mem.take d.num_match).drop i ++ mem.drop (d.num_match - i)).length = mem.length := by
      rw [length_append, hlen, length_drop]
      omega
    rw [if_pos hpos, hmove, ok_bind]
    simp only [hi, decide_true, assert_true, ok_bind]
    split
    · next hshrink =>
      refine ⟨_, rfl, ?_, fun _ => realloc_length _ _, fun hn => absurd ⟨hpos, hshrink⟩ hn⟩
      rw [take_realloc (Nat.le_of_lt hshrink.1) (by rw [htotal]; omega), take_left' hlen]
    · next hkeep => exact ⟨_, rfl, take_left' hlen, fun hs => absurd hs.2 hkeep, fun _ => htotal⟩
  · obtain rfl : i = 0 := by omega
    exact ⟨mem, rfl, rfl, fun hs => absurd hs.1 hpos, fun _ => rfl⟩

/-- The list is pruned in its memory. -/
theorem pruneMemory_eq (w : Window) (t : Int) (h : d.num_match ≤ mem.length) :
    ∃ mem' n', pruneMemory w t d mem = .ok ({ d with num_match := n' }, mem') ∧ n' ≤ d.num_match ∧
      mem'.take n' = (Matches.prune w ⟨mem.take d.num_match, d.matchlist_size⟩ t).times ∧
      (Shrinks w t d mem → mem'.length = d.matchlist_size / 2 ∧ n' < d.matchlist_size / 2) ∧
      (¬ Shrinks w t d mem → mem'.length = mem.length) := by
  have hlen : (mem.take d.num_match).length = d.num_match := by
    rw [length_take]
    omega
  unfold pruneMemory Matches.prune Shrinks
  simp only [hlen]
  by_cases hfull : d.num_match + 1 ≥ w.threshold ∨ d.num_match + 1 ≥ d.matchlist_size
  · have hscan := scanExpired_eq (w := w) (t := t) (show 0 + d.num_match ≤ mem.length by omega)
    rw [drop_zero, Nat.zero_add] at hscan
    have hi : ((mem.take d.num_match).takeWhile (w.expired t)).length ≤ d.num_match := by
      have := (takeWhile_sublist (l := mem.take d.num_match) (w.expired t)).length_le
      omega
    obtain ⟨mem', hdrop, htimes, hshrink, hkeep⟩ := dropFirst_eq hi h
    rw [if_pos hfull, if_pos hfull, hscan, ok_bind, hdrop]
    refine ⟨mem', _, rfl, Nat.sub_le _ _, ?_, fun hs => ⟨hshrink hs.2, hs.2.2.1⟩, fun hn =>
      hkeep fun hs => hn ⟨hfull, hs⟩⟩
    rw [htimes, drop_takeWhile_length]
  · rw [if_neg hfull, if_neg hfull]
    exact ⟨mem, d.num_match, rfl, Nat.le_refl _, rfl, fun hs => absurd hs.1 hfull, fun _ => rfl⟩

theorem grown_length (d : MatchData) (mem : List Int) : (grown d mem).2.length =
    if d.num_match + 1 ≥ d.matchlist_size then d.matchlist_size * 3 / 2 else mem.length := by
  unfold grown
  split
  · exact realloc_length _ _
  · rfl

/-- A time is added to the list in its memory, if there is room. -/
theorem addTime_eq (t : Int) (hlist : d.num_match ≤ mem.length)
    (hroom : d.num_match < (grown d mem).2.length) : ∃ mem', addTime t d mem =
      .ok ⟨d.num_match + 1, (grown d mem).1, some mem'⟩ ∧ mem'.length = (grown d mem).2.length ∧
      (⟨mem'.take (d.num_match + 1), (grown d mem).1⟩ : Matches) =
        Matches.add ⟨mem.take d.num_match, d.matchlist_size⟩ t := by
  have hlen : (mem.take d.num_match).length = d.num_match := by
    rw [length_take]
    omega
  refine ⟨(grown d mem).2.set d.num_match t, ?_, length_set, ?_⟩
  · rw [addTime, wrTime, if_pos hroom]
    rfl
  have htake : (grown d mem).2.take d.num_match = mem.take d.num_match := by
    unfold grown at hroom ⊢
    split
    · next hfull =>
      rw [if_pos hfull, realloc_length] at hroom
      exact take_realloc (Nat.le_of_lt hroom) hlist
    · rfl
  rw [take_wrTime hroom, htake, Matches.add, hlen]
  unfold grown
  split <;> rfl

theorem opened_view (h : d.num_match ≤ d.room) :
    d.opened.1.num_match ≤ d.opened.2.length ∧
      (⟨d.opened.2.take d.opened.1.num_match, d.opened.1.matchlist_size⟩ : Matches) = d.view := by
  unfold MatchData.room at h
  unfold MatchData.opened MatchData.view
  cases hmem : d.matchlist with
  | none => exact ⟨Nat.zero_le _, rfl⟩
  | some mem =>
    rw [hmem] at h
    exact ⟨h, rfl⟩

theorem Matches.prune_size (w : Window) (m : Matches) (t : Int) : (m.prune w t).size = m.size := by
  unfold Matches.prune
  split <;> rfl

/-- One call: `d1` with `mem1` is what pruning leaves, and the time is added if there is room for
it. -/
theorem processThresholded_cases (w : Window) (t : Int) (h : d.num_match ≤ d.room) :
    ∃ d1 mem1, d1.num_match ≤ d.opened.1.num_match ∧ d1.matchlist_size = d.opened.1.matchlist_size ∧
      (Shrinks w t d.opened.1 d.opened.2 →
        mem1.length = d1.matchlist_size / 2 ∧ d1.num_match < d1.matchlist_size / 2) ∧
      (¬ Shrinks w t d.opened.1 d.opened.2 → mem1.length = d.opened.2.length) ∧
      (d1.num_match < (grown d1 mem1).2.length → ∃ d', d'.num_match = d1.num_match + 1 ∧
        d'.matchlist_size = (grown d1 mem1).1 ∧ d'.room = (grown d1 mem1).2.length ∧
        processThresholded w t d = .ok ((d.view.matched w t).1, d') ∧ d'.view = (d.view.matched w t).2) ∧
      (¬ d1.num_match < (grown d1 mem1).2.length → processThresholded w t d = Res.fault) := by
  obtain ⟨hlist, hview⟩ := opened_view h
  obtain ⟨mem1, n, hprune, hn, htimes, hshrink, hkeep⟩ := pruneMemory_eq w t hlist
  have hlist1 : n ≤ mem1.length := by
    by_cases hs : Shrinks w t d.opened.1 d.opened.2
    · have := hshrink hs
      omega
    · have := hkeep hs
      omega
  have hpruned : (⟨mem1.take n, d.opened.1.matchlist_size⟩ : Matches) = d.view.prune w t := by
    have hsize := Matches.prune_size w ⟨d.opened.2.take d.opened.1.num_match, d.opened.1.matchlist_size⟩ t
    rw [← hview, htimes]
    exact congrArg (Matches.mk _) hsize.symm
  refine ⟨⟨n, d.opened.1.matchlist_size, d.opened.1.matchlist⟩, mem1, hn, rfl, hshrink, hkeep, ?_, ?_⟩
  · intro hroom
    obtain ⟨mem2, hadd, hlen, hmatches⟩ := addTime_eq t hlist1 hroom
    rw [hpruned] at hmatches
    have hcount : (mem2.take (n + 1)).length = n + 1 := by
      rw [length_take, hlen]
      exact Nat.min_eq_left hroom
    refine ⟨⟨n + 1, _, some mem2⟩, rfl, rfl, hlen, ?_, hmatches⟩
    rw [processThresholded, hprune, ok_bind]
    dsimp only
    rw [hadd, ok_bind]
    simp only [Matches.matched, ← hmatches, hcount, pure_eq]
  · intro hroom
    rw [processThresholded, hprune, ok_bind]
    dsimp only
    rw [addTime, wrTime, if_neg hroom]
    rfl

/-- What the function returns is what the list says, and the list stays within the memory. -/
theorem processThresholded_refines {x : Bool} (h : d.num_match ≤ d.room)
    (hok : processThresholded w t d = .ok (x, d')) : d.view.matched w t = (x, d'.view) ∧
    d'.num_match ≤ d'.room := by
  obtain ⟨d1, mem1, -, -, -, -, hroom, hfault⟩ := processThresholded_cases w t h
  by_cases hlt : d1.num_match < (grown d1 mem1).2.length
  · obtain ⟨d2, hnum, -, hlen, hcall, hview⟩ := hroom hlt
    rw [hcall] at hok
    cases hok
    exact ⟨by rw [hview], by omega⟩
  · rw [hfault hlt] at hok
    cases hok

end Memory

/-! ## Bounds -/

/-- There is memory for `matchlist_size` times, and not more of them than that. -/
def InBounds (d : MatchData) : Prop := d.matchlist_size ≤ d.room ∧ d.num_match ≤ d.matchlist_size

instance (d : MatchData) : Decidable (InBounds d) := by
  unfold InBounds
  infer_instance

def MatchData.step (w : Window) (d : MatchData) (timeval : Int) : Res MatchData := do
  let (_, d) ← processThresholded w timeval d
  return d

def KeepsMemory (w : Window) (d : MatchData) (timeval : Int) : Prop :=
    ¬ Shrinks w timeval d.opened.1 d.opened.2

instance (w : Window) (d : MatchData) (timeval : Int) : Decidable (KeepsMemory w d timeval) := by
  unfold KeepsMemory
  infer_instance

structure MatchData.Good (d : MatchData) : Prop where
  bounds : InBounds d
  spare : d.matchlist ≠ none → d.num_match < d.matchlist_size ∧ defaultWindowSize ≤ d.matchlist_size

theorem MatchData.Good.opened {d : MatchData} (h : d.Good) :
    d.opened.1.num_match < d.opened.1.matchlist_size ∧ defaultWindowSize ≤
      d.opened.1.matchlist_size ∧ d.opened.1.matchlist_size ≤ d.opened.2.length := by
  have hbounds := h.bounds.1
  unfold MatchData.room at hbounds
  unfold MatchData.opened
  cases hmem : d.matchlist with
  | none => exact ⟨show 0 < defaultWindowSize by decide, Nat.le_refl _, by simp [malloc]⟩
  | some mem =>
    obtain ⟨hnum, hsize⟩ := h.spare (by simp [hmem])
    rw [hmem] at hbounds
    exact ⟨hnum, hsize, hbounds⟩

/-- From a good state every call returns; it leaves a good state exactly if it does not make the
memory smaller. -/
theorem step_good {d : MatchData} (h : d.Good) (t : Int) :
    ∃ d', d.step w t = .ok d' ∧ (KeepsMemory w d t → d'.Good) ∧ (InBounds d' → KeepsMemory w d t) := by
  have hbounds := h.bounds
  obtain ⟨hnum, hsize, hlen⟩ := h.opened
  obtain ⟨d1, mem1, hn, hsame, hshrink, hkeep, hroom, -⟩ :=
    processThresholded_cases w t (Nat.le_trans hbounds.2 hbounds.1)
  have hdefault : defaultWindowSize = 100 := rfl
  have hlen1 := grown_length d1 mem1
  have hsize1 : (grown d1 mem1).1 =
      if d1.num_match + 1 ≥ d1.matchlist_size then d1.matchlist_size * 3 / 2 else d1.matchlist_size := by
    unfold grown
    split <;> rfl
  by_cases hs : Shrinks w t d.opened.1 d.opened.2
  · -- the list fits in half of the memory, so it does not grow again
    obtain ⟨hhalf, hfew⟩ := hshrink hs
    rw [if_neg (by omega)] at hlen1 hsize1
    obtain ⟨d', hnum', hsize', hroom', hcall, -⟩ := hroom (by omega)
    refine ⟨d', by rw [MatchData.step, hcall]; rfl, fun hk => absurd hs hk, fun hin => ?_⟩
    have := hin.1
    omega
  · have hmem := hkeep hs
    have hlt : d1.num_match < (grown d1 mem1).2.length ∧ (grown d1 mem1).1 ≤ (grown d1 mem1).2.length ∧
        d1.num_match + 1 < (grown d1 mem1).1 ∧ defaultWindowSize ≤ (grown d1 mem1).1 := by
      rw [hlen1, hsize1]
      split <;> omega
    obtain ⟨d', hnum', hsize', hroom', hcall, -⟩ := hroom hlt.1
    refine ⟨d', by rw [MatchData.step, hcall]; rfl, fun _ => ⟨⟨by omega, by omega⟩, fun _ =>
      ⟨by omega, by omega⟩⟩,
      fun _ => hs⟩

/-- Every access is in bounds and the memory has room for `matchlist_size` times, in every run whose
events do not make the memory smaller, and in no other. -/
theorem thresholded_in_bounds_iff (w : Window) (times : List Int) :
    Completes (MatchData.step w) InBounds .empty times ↔
    Meets (MatchData.step w) (KeepsMemory w) .empty times :=
  completes_iff_meets (fun _ h => h.bounds) (fun _ t h =>
    step_good h t) ⟨by decide, by simp [MatchData.empty]⟩ times

/-- Matches that leave the window one by one. -/
theorem thresholded_small_list : Completes (MatchData.step ⟨2, 10⟩) InBounds .empty
    [1, 2000000, 12000000, 30000000] :=
  (thresholded_in_bounds_iff ⟨2, 10⟩ [1, 2000000, 12000000, 30000000]).mpr (by decide +kernel)

/-- A hundred matches at once, and one when they have left the window: there is memory for 75 times,
where `matchlist_size` is 150. With 75 more matches the list is written behind it. -/
theorem matchlist_shrinks :
    (run (MatchData.step ⟨1, 10⟩) .empty (List.replicate 100 1 ++ [20000000])).map (fun d =>
      (d.matchlist_size, d.room)) =
      .ok (150, 75) ∧
    run (MatchData.step ⟨1, 10⟩) .empty (List.replicate 100 1 ++ List.replicate 76 20000000) = Res.fault := by
  decide +kernel

/-! ## The window of the memory -/

/-- The memory has the list of the same events. -/
theorem run_view {times : List Int} {d : MatchData} (h : run (MatchData.step w) .empty times = .ok d) :
    d.view = Matches.empty.events w (times.map (⟨·, true⟩)) ∧ d.num_match ≤ d.room := by
  induction times using reverseRecOn generalizing d with
  | nil =>
    cases h
    exact ⟨rfl, Nat.le_refl 0⟩
  | append_singleton times t ih =>
    rw [run_append] at h
    obtain ⟨d1, h1, h⟩ := bind_eq_ok.mp h
    obtain ⟨_, h2, rfl⟩ := map_eq_ok (f := Prod.snd) ((bind_ok _).symm.trans h)
    obtain ⟨hview, hroom⟩ := ih h1
    obtain ⟨hmatched, hroom'⟩ := processThresholded_refines hroom h2
    rw [map_append, map_singleton, Matches.events_append, ← hview]
    exact ⟨(congrArg Prod.snd hmatched).symm, hroom'⟩

/-- Wherever `process_thresholded` returns, the action is executed exactly if there are enough
matches in the window. -/
theorem memory_window (w : Window) (times : List Int) (t : Int) (d d' : MatchData) (x : Bool)
    (hsorted : (times ++ [t]).Pairwise (· ≤ ·)) (hrun : run (MatchData.step w) .empty times = .ok d)
    (hcall : processThresholded w t d = .ok (x, d')) :
    x = true ↔ w.threshold ≤ (times.filter fun a => !w.expired t a).length + 1 := by
  obtain ⟨hview, hroom⟩ := run_view hrun
  obtain ⟨hsorted, -, hlast⟩ := pairwise_append.mp hsorted
  have hcover := @events_cover w (times.map (⟨·, true⟩)) (pairwise_map.mpr hsorted) t (by simpa using hlast)
  have htimes : matchTimes (times.map (⟨·, true⟩)) = times := by
    simp [matchTimes, Function.comp_def, filter_map]
  have hx : (d.view.matched w t).1 = x := congrArg Prod.fst (processThresholded_refines hroom hcall).1
  rw [← hview, htimes] at hcover
  obtain ⟨gone, hall, -⟩ := id hcover
  rw [hall, pairwise_append] at hsorted
  rw [← hx, Matches.matched_iff hsorted.2.1, ← hcover.live]

/-- Two matches ten seconds apart. -/
theorem memory_window_two : 2 ≤ ([1].filter fun a => !(⟨2, 10⟩ : Window).expired 10000001 a).length + 1 :=
  (memory_window ⟨2, 10⟩ [1] 10000001 _ _ true (by decide) rfl rfl).mp rfl

end Nxlog.L4.Evcorr
