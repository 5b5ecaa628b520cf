import Nxlog.Core.Res

/-!
# Runs of a state machine

A machine is a step function `σ → α → Res σ`: an event either leads to the next
state or ends the run (a failed `ASSERT`, a fault). A run is a list of events.

* `run step s as`: the state at the end of the run `as` from `s`.
* `run_keeps`, `run_same`: what every step keeps, also of two machines.
* `run_checked_iff`: runs in which a check of every step does not fail.
* `run_of_step`, `run_exhausts`: a machine that steps from every good state to a
  good state completes every run, and in the end has used up a measure that
  each step decreases.
* `Always step P s as`: `P` holds in every state of the run `as` from `s`.
* `AllSteps step C s as`: every completed step meets `C`, a condition on the
  state before the step and the event.
* `always_of_step`: the invariant rule.
* `always_iff_allSteps`: when, from good states, a step keeps `P` exactly if it
  meets `C`, a run keeps `P` throughout exactly if all its steps meet `C`.
* `allSteps_of_step`, `run_simulates`: what every step from a good state does, and
  what the run then does to an abstraction of the state.
* `run_eq_ok_iff`: the runs of a machine that follows a fold as long as `P` holds.
* `Meets step C s as`, `Completes step P s as`: every event meets `C` in its state;
  no step of the run fails, and `P` holds throughout. `completes_of_step` leads
  from the one to the other.
-/
namespace Nxlog
open Res List

variable {σ α : Type} (step : σ → α → Res σ)

variable {P : σ → Prop} {C : σ → α → Prop} {as : List α} {A : α → Prop} {s : σ}

/-- The end of the run, or the failure of its first step that does not return. -/
def run (s : σ) (as : List α) : Res σ := as.foldlM step s

/-- `P` in every state of the run. -/
def Always (P : σ → Prop) : σ → List α → Prop
  | s, [] => P s
  | s, a :: as => P s ∧ ∀ s', step s a = .ok s' → Always P s' as

/-- `C` at every completed step of the run. -/
def AllSteps (C : σ → α → Prop) : σ → List α → Prop
  | _, [] => True
  | s, a :: as => ∀ s', step s a = .ok s' → C s a ∧ AllSteps C s' as

/-- `C` at every event of the run, whether or not its step returns. -/
def Meets (C : σ → α → Prop) : σ → List α → Prop
  | _, [] => True
  | s, a :: as => C s a ∧ ∀ s', step s a = .ok s' → Meets C s' as

/-- Every step of the run returns, and `P` holds in every state. -/
def Completes (P : σ → Prop) : σ → List α → Prop
  | s, [] => P s
  | s, a :: as => P s ∧ ∃ s', step s a = .ok s' ∧ Completes P s' as

variable {step}

@[simp] theorem run_nil (s : σ) : run step s [] = .ok s := rfl

theorem run_cons (s : σ) (a : α) (as : List α) :
    run step s (a :: as) = step s a >>= fun s' => run step s' as := rfl

theorem run_append (as bs : List α) (s : σ) :
    run step s (as ++ bs) = run step s as >>= fun s' => run step s' bs := foldlM_append

variable {as : List α} {s : σ}

theorem run_of_step (hstep : ∀ s a, P s → A a → ∃ s', step s a = .ok s' ∧ P s') (hs : P s)
    (hA : ∀ a ∈ as, A a) : ∃ s', run step s as = .ok s' ∧ P s' := by
  induction as generalizing s with
  | nil => exact ⟨s, rfl, hs⟩
  | cons a as ih =>
    obtain ⟨s1, h1, hs1⟩ := hstep s a hs (hA a mem_cons_self)
    obtain ⟨s2, h2, hs2⟩ := ih hs1 (forall_mem_cons.mp hA).2
    exact ⟨s2, by rw [run_cons, h1]; exact h2, hs2⟩

variable {s s' : σ}

theorem run_keeps (hstep : ∀ s a s', P s → step s a = .ok s' → P s') (hs : P s)
    (h : run step s as = .ok s') : P s' := by
  induction as generalizing s with
  | nil => cases h; exact hs
  | cons a as ih =>
    obtain ⟨s1, h1, hrest⟩ := bind_eq_ok.mp h
    exact ih (hstep s a s1 hs h1) hrest

/-- Two machines that go in step. -/
theorem run_same {step' : σ → α → Res σ} (hstep : ∀ s a, P s → Res.Same P (step s a) (step' s a))
    (hs : P s) (as : List α) : Res.Same P (run step s as) (run step' s as) := by
  induction as generalizing s with
  | nil => exact Res.Same.ok hs
  | cons a as ih => exact (hstep s a hs).bind fun s1 h1 => ih h1

/-- A machine with a check that fails, in whatever way, at the steps that do not meet `C`: it does
the same as the machine without exactly in the runs that meet `C`. -/
theorem run_checked_iff {check : Fail → σ → α → Res σ}
    (hcheck : ∀ bad s a, P s → Checked (C s a) P bad (check bad s a) (step s a)) (hs : P s)
    (as : List α) : (∀ bad, run (check bad) s as = run step s as) ↔ Meets step C s as := by
  induction as generalizing s with
  | nil => simp [Meets]
  | cons a as ih =>
    simp only [run_cons, Meets]
    rw [bind_checked_iff fun bad => hcheck bad s a hs]
    refine and_congr_right fun hc => forall_congr' fun s1 => forall_congr' fun h1 => ih ?_
    exact ((hcheck .hang s a hs).same hc).of_right h1

theorem run_exhausts {μ : σ → Nat} (hstep : ∀ s a, P s → A a → ∃ s', step s a = .ok s' ∧ P s' ∧ μ s' ≤ μ s - 1)
    (hs : P s) (hA : ∀ a ∈ as, A a) : ∃ s', run step s as = .ok s' ∧ P s' ∧ μ s' ≤ μ s - as.length := by
  induction as generalizing s with
  | nil => exact ⟨s, rfl, hs, Nat.le_refl _⟩
  | cons a as ih =>
    obtain ⟨s1, h1, hs1, hle1⟩ := hstep s a hs (hA a mem_cons_self)
    obtain ⟨s2, h2, hs2, hle2⟩ := ih hs1 (forall_mem_cons.mp hA).2
    refine ⟨s2, by rw [run_cons, h1]; exact h2, hs2, ?_⟩
    rw [length_cons]
    omega

theorem Always.head (h : Always step P s as) : P s := by
  cases as with
  | nil => exact h
  | cons a as => exact h.1

theorem Always.last (h : Always step P s as) (hrun : run step s as = .ok s') : P s' := by
  induction as generalizing s with
  | nil => cases hrun; exact h
  | cons a as ih =>
    obtain ⟨s1, h1, hrest⟩ := bind_eq_ok.mp hrun
    exact ih (h.2 s1 h1) hrest

variable {P Q : σ → Prop}

theorem Always.mono (hPQ : ∀ s, P s → Q s) (h : Always step P s as) : Always step Q s as := by
  induction as generalizing s with
  | nil => exact hPQ s h
  | cons a as ih => exact ⟨hPQ s h.1, fun s' hs => ih (h.2 s' hs)⟩

/-- What holds at the start and is kept by every step that meets `C` holds along
every run whose steps all meet `C`. -/
theorem always_of_step (hstep : ∀ s a s', P s → C s a → step s a = .ok s' → P s')
    (hs : P s) (hC : AllSteps step C s as) : Always step P s as := by
  induction as generalizing s with
  | nil => exact hs
  | cons a as ih =>
    refine ⟨hs, ?_⟩
    intro s' h
    obtain ⟨hc, hrest⟩ := hC s' h
    exact ih (hstep s a s' hs hc h) hrest

theorem AllSteps.cons {C : σ → α → Prop} {a : α} (h : step s a = .ok s') (hc : C s a)
    (hrest : AllSteps step C s' as) : AllSteps step C s (a :: as) := by
  intro t ht
  cases h.symm.trans ht
  exact ⟨hc, hrest⟩

variable {C D : σ → α → Prop}

theorem AllSteps.and (hC : AllSteps step C s as)
    (hD : AllSteps step D s as) : AllSteps step (fun s a => C s a ∧ D s a) s as := by
  induction as generalizing s with
  | nil => trivial
  | cons a as ih =>
    intro s' hs'
    exact ⟨⟨(hC s' hs').1, (hD s' hs').1⟩, ih (hC s' hs').2 (hD s' hs').2⟩

variable {P Good : σ → Prop}

/-- If `P` implies that the step into the state met `C`, a run in `P` throughout
consists of steps that meet `C`. -/
theorem allSteps_of_always (hstep : ∀ s a s', Good s → C s a → step s a = .ok s' → Good s')
    (hback : ∀ s a s', Good s → step s a = .ok s' → P s' → C s a) (hs : Good s)
    (hP : Always step P s as) : AllSteps step C s as := by
  induction as generalizing s with
  | nil => trivial
  | cons a as ih =>
    intro s' h
    have hrest := hP.2 s' h
    have hc := hback s a s' hs h hrest.head
    exact ⟨hc, ih (hstep s a s' hs hc h) hrest⟩

theorem always_iff_allSteps (hgood : ∀ s, Good s → P s) (hstep : ∀ s a s', Good s → C s a →
    step s a = .ok s' → Good s')
    (hback : ∀ s a s', Good s → step s a = .ok s' → P s' → C s a) (hs : Good s) (as : List α) :
    Always step P s as ↔ AllSteps step C s as := by
  constructor
  · exact allSteps_of_always hstep hback hs
  · intro h
    exact (always_of_step hstep hs h).mono hgood

instance Meets.decidable {C : σ → α → Prop} [∀ s a, Decidable (C s a)] :
    ∀ (s : σ) (as : List α), Decidable (Meets step C s as)
  | _, [] => isTrue trivial
  | s, a :: as =>
    match h : step s a with
    | .error e => decidable_of_iff (C s a) (by simp [Meets, h])
    | .ok s1 =>
      have := Meets.decidable (C := C) s1 as
      decidable_of_iff (C s a ∧ Meets step C s1 as) (by simp [Meets, h])

theorem meets_true : ∀ (as : List α) (s : σ), Meets step (fun _ _ => True) s as
  | [], _ => trivial
  | _ :: as, _ => ⟨trivial, fun s' _ => meets_true as s'⟩

theorem Meets.allSteps (h : Meets step C s as) : AllSteps step C s as := by
  induction as generalizing s with
  | nil => trivial
  | cons a as ih =>
    intro s' hs
    exact ⟨h.1, ih (h.2 s' hs)⟩

theorem Completes.head (h : Completes step P s as) : P s := by
  cases as with
  | nil => exact h
  | cons a as => exact h.1

/-- If every step from a good state returns, and leads to a good state exactly if it meets `C`, the
runs that complete in `P` are those whose steps all meet `C`. -/
theorem completes_iff_meets {P G : σ → Prop} (hgood : ∀ s, G s → P s)
    (hstep : ∀ s a, G s → ∃ s', step s a = .ok s' ∧ (C s a → G s') ∧ (P s' → C s a)) (hs : G s)
    (as : List α) : Completes step P s as ↔ Meets step C s as := by
  induction as generalizing s with
  | nil => exact iff_of_true (hgood s hs) trivial
  | cons a as ih =>
    obtain ⟨s', h, hG, hC⟩ := hstep s a hs
    constructor
    · rintro ⟨-, s1, h1, hrest⟩
      obtain rfl : s' = s1 := by simpa [h] using h1
      have hc := hC hrest.head
      exact ⟨hc, fun s2 h2 => by rw [h] at h2; cases h2; exact (ih (hG hc)).mp hrest⟩
    · rintro ⟨hc, hrest⟩
      exact ⟨hgood s hs, s', h, (ih (hG hc)).mpr (hrest s' h)⟩

/-- What every step from a good state that meets `C` satisfies. -/
theorem allSteps_of_step (hstep : ∀ s a s', P s → C s a → step s a = .ok s' → P s' ∧ D s a)
    (hs : P s) (hC : AllSteps step C s as) : AllSteps step D s as := by
  induction as generalizing s with
  | nil => trivial
  | cons a as ih =>
    intro s' h
    obtain ⟨hc, hrest⟩ := hC s' h
    obtain ⟨hs', hd⟩ := hstep s a s' hs hc h
    exact ⟨hd, ih hs' hrest⟩

/-- If every step acts on the abstraction `abs` as `f` does, so does the run. -/
theorem run_simulates {β : Type} {abs : σ → β} {f : β → α → β}
    (hall : AllSteps step (fun s a => ∀ s', step s a = .ok s' → abs s' = f (abs s) a) s as)
    (h : run step s as = .ok s') : abs s' = as.foldl f (abs s) := by
  induction as generalizing s s' with
  | nil =>
    cases h
    rfl
  | cons a as ih =>
    obtain ⟨s1, h1, hrest⟩ := bind_eq_ok.mp h
    obtain ⟨habs, hall1⟩ := hall s1 h1
    rw [ih hall1 hrest, habs s1 h1]
    rfl

theorem completes_of_step (hstep : ∀ s a, P s → C s a → ∃ s', step s a = .ok s' ∧ P s')
    (hs : P s) (hC : Meets step C s as) : Completes step P s as := by
  induction as generalizing s with
  | nil => exact hs
  | cons a as ih =>
    obtain ⟨s', h, hs'⟩ := hstep s a hs hC.1
    exact ⟨hs, s', h, ih hs' (hC.2 s' h)⟩

theorem Completes.mono (hPQ : ∀ s, P s → Q s) (h : Completes step P s as) : Completes step Q s as := by
  induction as generalizing s with
  | nil => exact hPQ s h
  | cons a as ih =>
    obtain ⟨hs, s', hstep, hrest⟩ := h
    exact ⟨hPQ s hs, s', hstep, ih hrest⟩

theorem Completes.run (h : Completes step P s as) : ∃ s', run step s as = .ok s' ∧ P s' := by
  induction as generalizing s with
  | nil => exact ⟨s, rfl, h⟩
  | cons a as ih =>
    obtain ⟨-, s1, hstep, hrest⟩ := h
    obtain ⟨s2, hrun, hs2⟩ := ih hrest
    refine ⟨s2, ?_, hs2⟩
    rw [run_cons, hstep]
    exact hrun

theorem run_eq_ok_iff {β : Type} {conc : β → σ} {f : β → α → β} {P : β → Prop}
    (hstep : ∀ b a s, P b ∧ step (conc b) a = .ok s ↔ P (f b a) ∧ s = conc (f b a)) (as : List α)
    (b : β) (s : σ) :
    P b ∧ run step (conc b) as = .ok s ↔ P (as.foldl f b) ∧ s = conc (as.foldl f b) := by
  induction as generalizing b with
  | nil => exact and_congr_right fun _ => ⟨fun h => (Except.ok.inj h).symm, fun h => congrArg _ h.symm⟩
  | cons a as ih =>
    rw [run_cons, bind_eq_ok, ← exists_and_left, List.foldl_cons, ← ih]
    simp only [← and_assoc, hstep]
    constructor
    · rintro ⟨s1, ⟨hb, rfl⟩, h⟩
      exact ⟨hb, h⟩
    · rintro ⟨hb, h⟩
      exact ⟨_, ⟨hb, rfl⟩, h⟩

end Nxlog
