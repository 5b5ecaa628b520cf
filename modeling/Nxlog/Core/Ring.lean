import Nxlog.Core.Res

/-!
# A ring of `n` places

A scan that starts at a place of a ring, looks at each place in turn and stops when it is
back where it started.

* `ringNext n i`: the place behind `i`.
* `ringDist n i j`: how many steps lead from `i` to `j`.
* `ringScan`: the loop, as a do/while that looks at the start first.
* `ringScan_spec`: the scan returns, and finds the place nearest to its start, if any.
-/
namespace Nxlog

def ringNext (n i : Nat) : Nat := if i + 1 = n then 0 else i + 1

def ringDist (n i j : Nat) : Nat := if i ≤ j then j - i else j + n - i

variable {n i j : Nat}

theorem ringNext_lt (h : i < n) : ringNext n i < n := by
  unfold ringNext
  split <;> omega

@[simp] theorem ringDist_self (n i : Nat) : ringDist n i i = 0 := by simp [ringDist]

theorem ringDist_lt (hi : i < n) (hj : j < n) : ringDist n i j < n := by
  unfold ringDist
  split <;> omega

/-- One step on is one step nearer. -/
theorem ringDist_next (hi : i < n) (hj : j < n) (hne : i ≠ j) : ringDist n (ringNext n i) j + 1 =
    ringDist n i j := by
  unfold ringDist ringNext
  split <;> split <;> split <;> omega

/-- Going round, every place but the last one is left behind. -/
theorem ringDist_next_left (hj : j < n) (hne : ringNext n i ≠ j) :
    ringDist n j (ringNext n i) = ringDist n j i + 1 := by
  revert hne
  unfold ringDist ringNext
  split <;> split <;> split <;> omega

/-- The scan from place `i` on, which ends when it gets to `start`. -/
def ringScan (p : Nat → Bool) (n start : Nat) : Nat → Nat → Res (Option Nat)
  | 0, _ => Res.hang
  | fuel + 1, i =>
    if p i then .ok (some i)
    else if ringNext n i = start then .ok none
    else ringScan p n start fuel (ringNext n i)

variable {p : Nat → Bool} {start : Nat}

structure Nearest (p : Nat → Bool) (n start : Nat) (r : Option Nat) : Prop where
  none : r = none → ∀ j < n, p j = false
  some : ∀ i, r = some i → i < n ∧ p i = true ∧ ∀ j < n, ringDist n start j < ringDist n start i → p j = false

/-- All places nearer to the start than `i` were looked at. -/
theorem ringScan_from (hs : start < n) (fuel i : Nat) (hi : i < n) (hfuel : n ≤ ringDist n start i + fuel)
    (hbefore : ∀ j < n, ringDist n start j < ringDist n start i → p j = false) :
    ∃ r, ringScan p n start fuel i = .ok r ∧ Nearest p n start r := by
  induction fuel generalizing i with
  | zero =>
    have := ringDist_lt hs hi
    omega
  | succ fuel ih =>
    rw [ringScan]
    by_cases hp : p i = true
    · refine ⟨some i, by simp [hp], by simp, ?_⟩
      intro k hk
      cases hk
      exact ⟨hi, hp, hbefore⟩
    · have hpi : p i = false := by simpa using hp
      -- the places up to `i`
      have hupto : ∀ j < n, ringDist n start j ≤ ringDist n start i → p j = false := by
        intro j hj hle
        by_cases hlt : ringDist n start j < ringDist n start i
        · exact hbefore j hj hlt
        · have hji : j = i := by
            have heq : ringDist n start j = ringDist n start i := by omega
            unfold ringDist at heq
            split at heq <;> split at heq <;> omega
          rw [hji, hpi]
      by_cases hback : ringNext n i = start
      · refine ⟨none, by simp [hp, hback], ?_, by simp⟩
        intro _ j hj
        apply hupto j hj
        have hlast : ringDist n start i + 1 = n := by
          revert hback
          unfold ringNext ringDist
          split <;> split <;> omega
        have := ringDist_lt hs hj
        omega
      · have hstep := ringDist_next_left hs hback
        obtain ⟨r, hr, hspec⟩ := ih (ringNext n i) (ringNext_lt hi) (by omega) (by
          intro j hj hlt
          exact hupto j hj (by omega))
        exact ⟨r, by simp [hp, hback, hr], hspec⟩

theorem ringScan_spec (p : Nat → Bool) (hs : start < n) :
    ∃ r, ringScan p n start n start = .ok r ∧ Nearest p n start r := by
  apply ringScan_from hs n start hs
  · simp
  · intro j _ hlt
    simp at hlt

end Nxlog
