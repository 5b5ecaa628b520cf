import Nxlog.Core.Run

/-!
# Fuel

A loop that may not end is given a number of rounds, and is `Res.hang` when they are used
up. What it would do without a limit is then a statement about all numbers of rounds:

* `x.Below y`: `y` has at least the rounds of `x`, so it is the same result unless `x` hangs.
* `bind_below`, `run_below`: sequences and runs.
* `run_ends_iff`: a run ends exactly if every event of it does.
-/
namespace Nxlog
namespace Res

variable {α β : Type}

/-- With more rounds, `x` is `y`. -/
def Below (x y : Res α) : Prop := x ≠ hang → y = x

theorem Below.refl (x : Res α) : Below x x := fun _ => rfl

theorem below_of_hang {x y : Res α} (h : x = hang) : Below x y := fun hx => absurd h hx

theorem bind_ne_hang {x : Res α} {f : α → Res β} : (x >>= f) ≠ hang ↔ x ≠ hang ∧ ∀ a, x = .ok a →
    f a ≠ hang := by
  cases x with
  | error e => simp [hang]
  | ok a => simp [hang]

theorem bind_below {x y : Res α} {f g : α → Res β} (hxy : Below x y)
    (hfg : ∀ a, Below (f a) (g a)) : Below (x >>= f) (y >>= g) := by
  intro h
  obtain ⟨hx, hf⟩ := bind_ne_hang.mp h
  rw [hxy hx]
  cases x with
  | error e => rfl
  | ok a => exact hfg a (hf a rfl)

@[simp] theorem ok_ne_hang (a : α) : (Except.ok a : Res α) ≠ hang := by simp [hang]

@[simp] theorem throw_ne_hang (msg : String) : (throw msg : Res α) ≠ hang := by simp [throw, hang]

@[simp] theorem fault_ne_hang : (fault : Res α) ≠ hang := by simp [fault, hang]

@[simp] theorem assert_ne_hang (expr : String) : (Except.error (.assert expr) : Res α) ≠ hang := by simp [hang]

/-- The call ends, and what it returns has the property. -/
def Ends (P : α → Prop) (x : Res α) : Prop := x ≠ hang ∧ Post P x

namespace Ends

variable {P : α → Prop} {Q : β → Prop} {x : Res α} {f : α → Res β}

theorem ok {a : α} (h : P a) : Ends P (.ok a) := ⟨ok_ne_hang a, .ok h⟩

theorem error {e : Fail} (h : e ≠ .hang) : Ends P (.error e) := ⟨fun he => h (Except.error.inj he), .error e⟩

theorem bind (h : Ends P x) (hf : ∀ a, P a → Ends Q (f a)) : Ends Q (x >>= f) :=
  ⟨bind_ne_hang.mpr ⟨h.1, fun a ha => (hf a (h.2 a ha)).1⟩, h.2.bind fun a ha => (hf a ha).2⟩

end Ends

end Res

open Res

variable {σ α : Type}

variable {step step' : σ → α → Res σ}

theorem run_below (h : ∀ s a, Below (step s a) (step' s a)) (s : σ) (as : List α) :
    Below (run step s as) (run step' s as) := by
  induction as generalizing s with
  | nil => exact Below.refl _
  | cons a as ih => exact bind_below (h s a) ih

variable {s : σ}

/-- Where a step of the second machine ends exactly if it meets `B`, and is then the step of the
first, a run of it ends exactly if all its events meet `B`, and is then the run of the first. -/
theorem run_ends_iff (Good : σ → Prop) {A B : σ → α → Prop}
    (hstep : ∀ s a, Good s → A s a → (step' s a ≠ hang ↔ B s a) ∧ (B s a → step s a = step' s a))
    (hgood : ∀ s a s', Good s → step s a = .ok s' → Good s') (hs : Good s) {as : List α}
    (hA : Meets step A s as) :
    (run step' s as ≠ hang ↔ Meets step B s as) ∧ (Meets step B s as → run step s as = run step' s as) := by
  induction as generalizing s with
  | nil => exact ⟨iff_of_true (ok_ne_hang s) trivial, fun _ => rfl⟩
  | cons a as ih =>
    obtain ⟨hiff, heq⟩ := hstep s a hs hA.1
    have hnext := fun s' hs' => ih (hgood s a s' hs hs') (hA.2 s' hs')
    rw [run_cons, run_cons, bind_ne_hang, hiff]
    refine ⟨and_congr_right fun hB => ?_, fun ⟨hB, hrest⟩ => ?_⟩
    · rw [← heq hB]
      exact forall₂_congr fun s' hs' => (hnext s' hs').1
    · rw [← heq hB]
      cases hs' : step s a with
      | error e => rfl
      | ok s' => exact (hnext s' hs').2 (hrest s' hs')

end Nxlog
