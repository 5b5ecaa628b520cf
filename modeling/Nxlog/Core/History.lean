import Nxlog.Core.Run

/-!
# Logs of a run

A log grows at its end, and what it should say of a note depends on the notes in front of that one:
`Each P log`.

* `each_snoc`, `lastSuch_snoc`: one more note.
* `completes_in_order`, `run_in_order`: a run over events of which some have a time, and the times
  do not go back.
-/
namespace Nxlog
open List

section Log

variable {ν : Type}

/-- Every note of the log is as `P` asks behind the notes in front of it. -/
def Each (P : List ν → ν → Prop) (log : List ν) : Prop :=
  ∀ before n after, log = before ++ n :: after → P before n

theorem each_nil (P : List ν → ν → Prop) : Each P [] := by
  intro before n after h
  simp at h

/-- A place in a log with one more note at its end. -/
theorem split_snoc {log before after : List ν} {n m : ν} (h : log ++ [m] = before ++ n :: after) :
    (log = before ∧ m = n ∧ after = []) ∨ ∃ after', log = before ++ n :: after' ∧ after = after' ++ [m] := by
  rcases eq_nil_or_concat after with rfl | ⟨after', k, rfl⟩
  · obtain ⟨hlog, hm⟩ := append_inj' h rfl
    exact .inl ⟨hlog, singleton_inj.mp hm, rfl⟩
  · rw [concat_eq_append, ← cons_append, ← append_assoc] at h
    obtain ⟨hlog, hm⟩ := append_inj' h rfl
    refine .inr ⟨after', hlog, ?_⟩
    rw [concat_eq_append, singleton_inj.mp hm]

variable {log : List ν}

theorem each_snoc {P : List ν → ν → Prop} {m : ν} (h : Each P log) (hm : P log m) : Each P (log ++ [m]) := by
  intro before n after hlog
  rcases split_snoc hlog with ⟨rfl, rfl, -⟩ | ⟨after', hlog, -⟩
  · exact hm
  · exact h before n after' hlog

def lastSuch (p : ν → Bool) (log : List ν) : Option ν := log.reverse.find? p

theorem lastSuch_snoc (p : ν → Bool) (log : List ν) (m : ν) :
    lastSuch p (log ++ [m]) = if p m then some m else lastSuch p log := by
  rw [lastSuch, reverse_append, reverse_singleton, singleton_append, find?_cons]
  cases p m <;> rfl

variable {p : ν → Bool}

theorem lastSuch_mem {n : ν} (h : lastSuch p log = some n) : n ∈ log ∧ p n = true :=
  ⟨mem_reverse.mp (mem_of_find?_eq_some h), find?_some h⟩

theorem lastSuch_none (h : lastSuch p log = none) : ∀ n ∈ log, p n = false := by
  intro n hn
  simpa using find?_eq_none.mp h n (mem_reverse.mpr hn)

theorem getElem?_snoc {m n : ν} {i : Nat} :
    (log ++ [m])[i]? = some n ↔ log[i]? = some n ∨ (i = log.length ∧ n = m) := by
  rw [getElem?_append]
  split
  · next hlt =>
    constructor
    · exact .inl
    · rintro (h | ⟨rfl, -⟩)
      · exact h
      · exact absurd hlt (Nat.lt_irrefl _)
  · next hge =>
    rw [getElem?_singleton, getElem?_eq_none (Nat.le_of_not_lt hge)]
    split
    · next hzero =>
      have hi : i = log.length := by omega
      simp [hi, eq_comm]
    · next hzero =>
      have hi : i ≠ log.length := by omega
      simp [hi]

end Log

section Order

variable {σ α : Type} {step : σ → α → Res σ}

variable (time : α → Option Int) (clock : σ → Int) {A : α → Prop}

/-- The events have `A`, and their times do not go back. If every such step that meets `C` leads
from a good state to a good one, and no other to a state with `P`, the runs that complete in `P` are
those whose steps all meet `C`. -/
theorem completes_in_order {P G : σ → Prop} {C : σ → α → Prop} (hgood : ∀ s, G s → P s)
    (hstep : ∀ s a, G s → A a → (∀ t, time a = some t → clock s ≤ t) →
      (C s a → ∃ s', step s a = .ok s' ∧ clock s' = (time a).getD (clock s) ∧ G s') ∧
      ∀ s', step s a = .ok s' → P s' → C s a)
    {as : List α} {s : σ} (hs : G s) (hA : ∀ a ∈ as, A a) (hclock : ∀ t ∈ as.filterMap time, clock s ≤ t)
    (horder : (as.filterMap time).Pairwise (· ≤ ·)) : (Completes step P s as ↔ Meets step C s as) := by
  induction as generalizing s with
  | nil => exact iff_of_true (hgood s hs) trivial
  | cons a as ih =>
    have hnow : ∀ t, time a = some t → clock s ≤ t := fun t ht => hclock t (by simp [ht])
    obtain ⟨hC, hback⟩ := hstep s a hs (hA a mem_cons_self) hnow
    have hrest : (∀ t ∈ as.filterMap time, (time a).getD (clock s) ≤ t) ∧
        (as.filterMap time).Pairwise (· ≤ ·) := by
      cases ha : time a with
      | none =>
        rw [filterMap_cons_none ha] at hclock horder
        exact ⟨hclock, horder⟩
      | some t =>
        rw [filterMap_cons_some ha] at horder
        exact pairwise_cons.mp horder
    have hiff : C s a → ∃ s1, step s a = .ok s1 ∧ (Completes step P s1 as ↔ Meets step C s1 as) := by
      intro hc
      obtain ⟨s1, hs1, hclock1, hG⟩ := hC hc
      exact ⟨s1, hs1, ih hG (forall_mem_cons.mp hA).2 (hclock1 ▸ hrest.1) hrest.2⟩
    constructor
    · rintro ⟨-, s1, hs1, hcompletes⟩
      have hc := hback s1 hs1 hcompletes.head
      refine ⟨hc, fun s2 hs2 => ?_⟩
      obtain ⟨s3, hs3, h⟩ := hiff hc
      obtain rfl : s1 = s2 := Except.ok.inj (hs1.symm.trans hs2)
      obtain rfl : s1 = s3 := Except.ok.inj (hs1.symm.trans hs3)
      exact h.mp hcompletes
    · rintro ⟨hc, hmeets⟩
      obtain ⟨s1, hs1, h⟩ := hiff hc
      exact ⟨hgood s hs, s1, hs1, h.mpr (hmeets s1 hs1)⟩

theorem run_in_order {P : σ → Prop} (hstep : ∀ s a, P s → A a → (∀ t, time a = some t → clock s ≤ t) →
      ∃ s', step s a = .ok s' ∧ P s' ∧ clock s' = (time a).getD (clock s))
    {as : List α} {s : σ} (hs : P s) (hA : ∀ a ∈ as, A a) (hclock : ∀ t ∈ as.filterMap time, clock s ≤ t)
    (horder : (as.filterMap time).Pairwise (· ≤ ·)) : ∃ s', run step s as = .ok s' ∧ P s' := by
  have hiff : Completes step P s as ↔ Meets step (fun _ _ => True) s as :=
    completes_in_order time clock (fun _ => id)
      (fun s a hs ha hnow => by
        obtain ⟨s', hs', hP, hclock'⟩ := hstep s a hs ha hnow
        exact ⟨fun _ => ⟨s', hs', hclock', hP⟩, fun _ _ _ => trivial⟩)
      hs hA hclock horder
  exact (hiff.mpr (meets_true as s)).run

end Order

end Nxlog
