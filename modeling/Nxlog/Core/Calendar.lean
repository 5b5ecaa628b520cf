import Mathlib.Algebra.Order.Ring.Int
import Mathlib.Tactic.Common

/-!
# The Gregorian calendar

Days are counted from 1 January of the year 1, in both directions. Four hundred years have
146097 days, so a day is a day of such a cycle; the cycle is cut into centuries, groups of
four years and years, each of which is one day longer at its end.

* `YearDay`: a day of a year.
* `yearDay`: the year that a day is in.
* `monthDay`: month and day of the month.
-/
namespace Nxlog

def cycleDays : Nat := 146097

def yearDays (leap : Bool) : Nat := if leap then 366 else 365

/-- A day of a year, from 0 on. -/
structure YearDay where
  leap : Bool
  day : Nat
  inYear : day < yearDays leap

/-- Day `d` of a cycle: the last century, the last four years and the last year have one day
more. -/
def yearDay (d : Nat) : YearDay :=
  let century := min (d / 36524) 3
  let d1 := d - 36524 * century
  let four := d1 / 1461
  let d2 := d1 % 1461
  let year := min (d2 / 365) 3
  let leap := decide (year = 3 ∧ (four ≠ 24 ∨ century = 3))
  ⟨leap, d2 - 365 * year, by
    rw [yearDays]
    split
    · omega
    · next hleap =>
      simp only [leap, decide_eq_true_eq] at hleap
      omega⟩

def monthLengths (leap : Bool) : List Nat :=
  [31, if leap then 29 else 28, 31, 30, 31, 30, 31, 31, 30, 31, 30, 31]

/-- The month of day `d`, from `month` on, and the day of that month, both from 0 on. -/
def monthFrom : List Nat → Nat → Nat → Nat × Nat
  | [], month, d => (month, d)
  | n :: ns, month, d => if d < n then (month, d) else monthFrom ns (month + 1) (d - n)

theorem monthFrom_bounds {ns : List Nat} {month d : Nat} (hd : d < ns.sum) (hns : ∀ n ∈ ns,
    n ≤ 31) : (monthFrom ns month d).1 < month + ns.length ∧ (monthFrom ns month d).2 < 31 := by
  induction ns generalizing month d with
  | nil => simp at hd
  | cons n ns ih =>
    rw [List.sum_cons] at hd
    rw [monthFrom, List.length_cons]
    split
    · next hn =>
      have := hns n List.mem_cons_self
      exact ⟨by dsimp only; omega, by dsimp only; omega⟩
    · have hrest : d - n < ns.sum := by omega
      obtain ⟨hmonth, hday⟩ := @ih (month + 1) (d - n) hrest (List.forall_mem_cons.mp hns).2
      exact ⟨by omega, hday⟩

theorem monthLengths_bounds (leap : Bool) :
    (monthLengths leap).sum = yearDays leap ∧ (∀ n ∈ monthLengths leap, n ≤ 31) ∧
    (monthLengths leap).length = 12 := by
  revert leap
  decide

def monthDay (y : YearDay) : Fin 12 × Fin 31 :=
  have h := monthLengths_bounds y.leap
  have hb : (monthFrom (monthLengths y.leap) 0 y.day).1 < 0 + (monthLengths y.leap).length ∧
      (monthFrom (monthLengths y.leap) 0 y.day).2 < 31 := monthFrom_bounds (h.1 ▸ y.inYear) h.2.1
  (⟨(monthFrom (monthLengths y.leap) 0 y.day).1, by simpa [h.2.2] using hb.1⟩,
    ⟨(monthFrom (monthLengths y.leap) 0 y.day).2, hb.2⟩)

def monthOfDay (d : Int) : Fin 12 × Fin 31 :=
  monthDay (yearDay (d % (cycleDays : Int)).toNat)

end Nxlog
