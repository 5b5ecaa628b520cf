import Mathlib.Algebra.Order.Ring.Int
import Mathlib.Data.List.Pairwise

/-!
# Lists searched for their first match

A linked list that is walked until an element satisfies a test, and then has
that element changed or unlinked. `updateFirst p g` changes the first element
that satisfies `p`; unlinking it is `List.eraseP`.

The lemmas say what a search with another test finds afterwards, and that a
pairwise relation between the elements is kept.
-/
namespace Nxlog
open List

variable {α : Type} {p q : α → Bool} {g : α → α} {R : α → α → Prop}

variable {l : List α} {a : α}

def updateFirst (p : α → Bool) (g : α → α) : List α → List α
  | [] => []
  | a :: l => if p a then g a :: l else a :: updateFirst p g l

/-- A search that neither the old nor the new element concerns. -/
theorem find?_updateFirst_of_ne (h : ∀ a, p a → q a = false) (h' : ∀ a, p a → q (g a) = false) :
    (updateFirst p g l).find? q = l.find? q := by
  induction l with
  | nil => rfl
  | cons a l ih =>
    by_cases ha : p a
    · simp [updateFirst, ha, h a ha, h' a ha]
    · simp [updateFirst, ha, find?_cons, ih]

/-- The search for the changed element finds it changed. -/
theorem find?_updateFirst (h : ∀ a, p a → p (g a)) : (updateFirst p g l).find? p = (l.find? p).map g := by
  induction l with
  | nil => rfl
  | cons a l ih =>
    by_cases ha : p a
    · simp [updateFirst, ha, h a ha]
    · simp [updateFirst, ha, ih]

/-- A search that only the new element satisfies. -/
theorem find?_updateFirst_new (hf : l.find? p = some a) (hq : ∀ b ∈ l, q b = false)
    (hg : q (g a)) : (updateFirst p g l).find? q = some (g a) := by
  induction l with
  | nil => simp at hf
  | cons b l ih =>
    by_cases hb : p b
    · simp only [find?_cons, hb, Option.some.injEq] at hf
      subst hf
      simp [updateFirst, hb, hg]
    · have hfl : l.find? p = some a := by simpa [find?_cons, hb] using hf
      have := ih hfl (forall_mem_cons.mp hq).2
      simp [updateFirst, hb, hq b mem_cons_self, this]

/-- With at most one match, changing it into a mismatch leaves none. -/
theorem find?_updateFirst_gone (hl : l.Pairwise R) (hR : ∀ a b, p a → R a b → p b = false)
    (hg : ∀ a, p a → p (g a) = false) : (updateFirst p g l).find? p = none := by
  induction l with
  | nil => rfl
  | cons a l ih =>
    obtain ⟨ha, hl⟩ := pairwise_cons.mp hl
    by_cases hp : p a
    · have hrest : l.find? p = none := by
        rw [find?_eq_none]
        intro b hb
        simp [hR a b hp (ha b hb)]
      simp [updateFirst, hp, hg a hp, hrest]
    · simp [updateFirst, hp, ih hl]

theorem mem_updateFirst (h : a ∈ updateFirst p g l) : a ∈ l ∨ ∃ b ∈ l, p b = true ∧ a = g b := by
  induction l with
  | nil => simp [updateFirst] at h
  | cons b l ih =>
    by_cases hb : p b
    · simp only [updateFirst, hb, if_true, mem_cons] at h
      rcases h with rfl | h
      · exact .inr ⟨b, mem_cons_self, hb, rfl⟩
      · exact .inl (mem_cons_of_mem _ h)
    · rw [updateFirst, if_neg hb, mem_cons] at h
      rcases h with rfl | h
      · exact .inl mem_cons_self
      · rcases ih h with h | ⟨c, hc, hpc, rfl⟩
        · exact .inl (mem_cons_of_mem _ h)
        · exact .inr ⟨c, mem_cons_of_mem _ hc, hpc, rfl⟩

/-- A symmetric relation between the elements survives if the new element is
related to all that the old one was related to. -/
theorem pairwise_updateFirst [Std.Symm R] (hl : l.Pairwise R)
    (hg : ∀ a ∈ l, ∀ b ∈ l, p a = true → R a b → R (g a) b) : (updateFirst p g l).Pairwise R := by
  induction l with
  | nil => simp [updateFirst]
  | cons a l ih =>
    obtain ⟨ha, hl⟩ := pairwise_cons.mp hl
    by_cases hp : p a
    · rw [updateFirst, if_pos hp, pairwise_cons]
      refine ⟨?_, hl⟩
      intro b hb
      exact hg a mem_cons_self b (mem_cons_of_mem _ hb) hp (ha b hb)
    · rw [updateFirst, if_neg hp, pairwise_cons]
      constructor
      · intro b hb
        rcases mem_updateFirst hb with hb | ⟨c, hc, hpc, rfl⟩
        · exact ha b hb
        · apply Std.Symm.symm
          exact hg c (mem_cons_of_mem _ hc) a mem_cons_self hpc (Std.Symm.symm _ _ (ha c hc))
      · exact ih hl fun x hx y hy =>
          hg x (mem_cons_of_mem _ hx) y (mem_cons_of_mem _ hy)

/-- Where one element at most has a property, replacing that one leaves none with it. -/
theorem updateFirst_lost [Std.Symm R] (hl : l.Pairwise R)
    (hR : ∀ a b, q a → R a b → q b = false) (hf : l.find? p = some a) (hq : q a)
    (hg : q (g a) = false) : ∀ b ∈ updateFirst p g l, q b = false := by
  induction l with
  | nil => simp at hf
  | cons c l ih =>
    obtain ⟨hc, hl⟩ := pairwise_cons.mp hl
    intro b hb
    by_cases hp : p c
    · rw [find?_cons_of_pos hp, Option.some.injEq] at hf
      subst hf
      rw [updateFirst, if_pos hp, mem_cons] at hb
      rcases hb with rfl | hb
      · exact hg
      · exact hR c b hq (hc b hb)
    · rw [find?_cons_of_neg hp] at hf
      rw [updateFirst, if_neg hp, mem_cons] at hb
      rcases hb with rfl | hb
      · exact hR a b hq (Std.Symm.symm _ _ (hc a (mem_of_find?_eq_some hf)))
      · exact ih hl hf b hb

/-- A search that the unlinked element does not satisfy. -/
theorem find?_eraseP_of_ne (h : ∀ a, p a → q a = false) : (l.eraseP p).find? q = l.find? q := by
  induction l with
  | nil => rfl
  | cons a l ih =>
    by_cases ha : p a
    · simp [ha, h a ha]
    · simp [ha, find?_cons, ih]

/-- With at most one match, unlinking it leaves none. -/
theorem not_mem_eraseP (hl : l.Pairwise R) (hR : ∀ a b, p a → R a b → p b = false) :
    ∀ b ∈ l.eraseP p, p b = false := by
  induction l with
  | nil => simp
  | cons a l ih =>
    obtain ⟨ha, hl⟩ := pairwise_cons.mp hl
    intro b hb
    by_cases hp : p a
    · rw [eraseP_cons_of_pos hp] at hb
      exact hR a b hp (ha b hb)
    · rw [eraseP_cons_of_neg hp] at hb
      rcases mem_cons.mp hb with rfl | hb
      · simpa using hp
      · exact ih hl b hb

/-- With at most one match, the search finds it. -/
theorem find?_of_mem [Std.Symm R] (hl : l.Pairwise R)
    (hR : ∀ a b, p a → R a b → p b = false) (ha : a ∈ l) (hp : p a) : l.find? p = some a := by
  induction l with
  | nil => simp at ha
  | cons b l ih =>
    obtain ⟨hb, hl⟩ := pairwise_cons.mp hl
    rcases mem_cons.mp ha with rfl | hal
    · simp [hp]
    · have := hR a b hp (Std.Symm.symm _ _ (hb a hal))
      simp [this, ih hl hal]

/-! ## What the change leaves in place -/

theorem filter_updateFirst (h : ∀ a, p a → q a = false) (h' : ∀ a, p a → q (g a) = false) :
    (updateFirst p g l).filter q = l.filter q := by
  induction l with
  | nil => rfl
  | cons a l ih =>
    by_cases ha : p a
    · simp [updateFirst, ha, h a ha, h' a ha]
    · simp [updateFirst, ha, filter_cons, ih]

theorem filter_eraseP (h : ∀ a, p a → q a = false) : (l.eraseP p).filter q = l.filter q := by
  induction l with
  | nil => rfl
  | cons a l ih =>
    by_cases ha : p a
    · simp [ha, h a ha]
    · simp [ha, filter_cons, ih]

theorem eraseP_congr (h : ∀ a ∈ l, p a = q a) : l.eraseP p = l.eraseP q := by
  induction l with
  | nil => rfl
  | cons a l ih =>
    have ha := h a mem_cons_self
    have hl := ih (forall_mem_cons.mp h).2
    rw [eraseP_cons, eraseP_cons, ha, hl]

/-- With at most one match, unlinking it keeps exactly the mismatches. -/
theorem eraseP_eq_filter (hl : l.Pairwise R) (hR : ∀ a b, p a → R a b → p b = false) :
    l.eraseP p = l.filter fun a => !p a := by
  have hkeep := filter_eraseP (q := fun a => !p a) (l := l) (p := p) fun a ha => by simp [ha]
  rw [← hkeep]
  symm
  rw [filter_eq_self]
  intro b hb
  simp [not_mem_eraseP hl hR b hb]

end Nxlog
