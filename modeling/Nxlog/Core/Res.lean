import Mathlib.Algebra.Order.Ring.Int
import Mathlib.Tactic.Common

/-!
# Outcomes of a C call

A function of the source either returns, or leaves through one of four doors:

* `throw`: a cexcept exception (`throw_msg`, `throw`, `rethrow`),
* `assert`: a failed `ASSERT` or an `nx_panic`,
* `fault`: an access outside the memory a pointer may touch, or through `NULL`,
* `hang`: a loop that is still running when its fuel is used up.

`Res α` is the result of such a call. Keeping the four apart lets "throws",
"never fails an ASSERT", "reads only its buffer" and "returns" be separate
statements about one definition.
-/
namespace Nxlog

inductive Fail where
  | throw (msg : String)
  | assert (expr : String)
  | fault
  | hang
  deriving DecidableEq, Repr

abbrev Res (α : Type) := Except Fail α

namespace Res

variable {α β : Type}

def throw (msg : String) : Res α := .error (.throw msg)

def fault : Res α := .error .fault

def hang : Res α := .error .hang

def assert (c : Bool) (expr : String) : Res Unit := if c then .ok () else .error (.assert expr)

@[simp] theorem ok_bind (a : α) (f : α → Res β) : ((Except.ok a : Res α) >>= f) = f a := rfl

@[simp] theorem error_bind (e : Fail) (f : α → Res β) : ((Except.error e : Res α) >>= f) = .error e := rfl

@[simp] theorem throw_bind (m : String) (f : α → Res β) : ((throw m : Res α) >>= f) = throw m := rfl

@[simp] theorem fault_bind (f : α → Res β) : ((fault : Res α) >>= f) = fault := rfl

theorem bind_ok (x : Res α) : (x >>= fun a => .ok a) = x := by cases x <;> rfl

@[simp] theorem pure_eq (a : α) : (pure a : Res α) = .ok a := rfl

@[simp] theorem assert_true (e : String) : assert true e = .ok () := rfl

@[simp] theorem assert_false (e : String) : assert false e = .error (.assert e) := rfl

variable {x : Res α} {f : α → Res β} {b : β}

/-- A sequence returns when both halves do. -/
theorem bind_eq_ok : (x >>= f) = .ok b ↔ ∃ a, x = .ok a ∧ f a = .ok b := by
  cases x with
  | error e => simp
  | ok a => simp

theorem returns_bind_ok {g : α → β} : (∃ b, (x >>= fun a => .ok (g a)) = .ok b) ↔ ∃ a, x = .ok a := by
  cases x <;> simp

/-- What is computed from a result tells that there is one. -/
theorem map_eq_ok {f : α → β} (h : x.map f = .ok b) : ∃ a, x = .ok a ∧ f a = b := by
  cases x with
  | error e => cases h
  | ok a => exact ⟨a, rfl, Except.ok.inj h⟩

/-- Replacing both halves by ones that return at least as often. -/
theorem bind_mono {x x' : Res α} {f f' : α → Res β} (h : (x >>= f) = .ok b)
    (hx : ∀ a, x = .ok a → x' = .ok a) (hf : ∀ a, x = .ok a → f a = .ok b → f' a = .ok b) :
    (x' >>= f') = .ok b := by
  obtain ⟨a, ha, hb⟩ := bind_eq_ok.mp h
  exact bind_eq_ok.mpr ⟨a, hx a ha, hf a ha hb⟩

/-- A sequence fails in its first half, or in its second after the first returned. -/
theorem bind_eq_error {e : Fail} : (x >>= f) = .error e ↔ x = .error e ∨ ∃ a, x = .ok a ∧ f a = .error e := by
  cases x with
  | error e' => simp
  | ok a => simp

/-! ## Calls that do not crash -/

/-- The call returns or throws. -/
def Graceful : Res α → Prop
  | .ok _ => True
  | .error (.throw _) => True
  | .error _ => False

@[simp] theorem graceful_ok (a : α) : Graceful (.ok a : Res α) := trivial

@[simp] theorem graceful_throw (m : String) : Graceful (throw m : Res α) := trivial

@[simp] theorem not_graceful_fault : ¬ Graceful (fault : Res α) := id

@[simp] theorem not_graceful_assert (e : String) : ¬ Graceful (.error (.assert e) : Res α) := id

theorem graceful_iff : Graceful x ↔ (∃ a, x = .ok a) ∨ ∃ m, x = throw m := by
  cases x with
  | ok a => simp
  | error e => cases e <;> simp [Graceful, throw]

variable {c : Prop} {x y : Res α}

theorem graceful_ite [Decidable c] (hx : Graceful x) (hy : Graceful y) : Graceful (if c then x else y) := by
  split
  · exact hx
  · exact hy

/-- A sequence is graceful if each half is that is reached. -/
theorem graceful_bind : Graceful (x >>= f) ↔ Graceful x ∧ ∀ a, x = .ok a → Graceful (f a) := by
  cases x with
  | ok a => simp
  | error e => cases e <;> simp [Graceful]

/-- A sequence whose second half always is graceful. -/
theorem graceful_bind_of (hf : ∀ a, Graceful (f a)) : Graceful (x >>= f) ↔ Graceful x := by
  rw [graceful_bind]
  exact and_iff_left fun a _ => hf a

theorem graceful_bind_ok {g : α → β} : Graceful (x >>= fun a => .ok (g a)) ↔ Graceful x :=
  graceful_bind_of fun _ => graceful_ok _

/-- A sequence of which both halves are graceful under a condition. -/
theorem graceful_bind_iff {γ : Type} {x : Res (α × γ)} {f : α × γ → Res β} {P : Prop}
    {Q : α → γ → Prop} (hx : Graceful x ↔ P) (hf : ∀ a c, Graceful (f (a, c)) ↔ Q a c) :
    Graceful (x >>= f) ↔ P ∧ ∀ a c, x = .ok (a, c) → Q a c := by
  rw [graceful_bind, hx, Prod.forall]
  exact and_congr_right fun _ => forall_congr' fun a => forall_congr' fun c => imp_congr_right fun _ => hf a c

/-! ## Two calls in step -/

/-- The calls have the same outcome, and what they return has the property. -/
def Same (P : α → Prop) (x y : Res α) : Prop := x = y ∧ ∀ a, x = .ok a → P a

variable {a : α}

namespace Same

variable {P : α → Prop} {Q : β → Prop}

theorem ok (h : P a) : Same P (.ok a) (.ok a) := ⟨rfl, by rintro _ ⟨⟩; exact h⟩

theorem error (e : Fail) : Same P (.error e) (.error e) := ⟨rfl, nofun⟩

theorem any (x : Res α) : Same (fun _ => True) x x := ⟨rfl, fun _ _ => trivial⟩

theorem bind {f g : α → Res β} (h : Same P x y) (hf : ∀ a, P a → Same Q (f a) (g a)) :
    Same Q (x >>= f) (y >>= g) := by
  obtain ⟨rfl, hx⟩ := h
  cases x with
  | error e => exact error e
  | ok a => exact hf a (hx a rfl)

theorem ite [Decidable c] {x y x' y' : Res α} (h : Same P x x') (h' : Same P y y') :
    Same P (if c then x else y) (if c then x' else y') := by
  split
  · exact h
  · exact h'

theorem eq (h : Same P x y) : x = y := h.1

theorem of_right (h : Same P x y) (ha : y = .ok a) : P a := h.2 a (h.1.trans ha)

end Same

/-- The calls fail in the same way, or return related results. -/
inductive Agree (R : α → β → Prop) : Res α → Res β → Prop where
  | ok {a : α} {b : β} (h : R a b) : Agree R (.ok a) (.ok b)
  | error (e : Fail) : Agree R (.error e) (.error e)

namespace Agree

variable {γ δ : Type} {R : α → β → Prop} {S : γ → δ → Prop} {x : Res α} {y : Res β}

theorem bind {f : α → Res γ} {g : β → Res δ} (h : Agree R x y)
    (hf : ∀ a b, R a b → Agree S (f a) (g b)) : Agree S (x >>= f) (y >>= g) := by
  cases h with
  | ok h => exact hf _ _ h
  | error e => exact error e

theorem map_eq {f : α → γ} {g : β → γ} (h : Agree R x y) (hfg : ∀ a b, R a b → f a = g b) :
    x.map f = y.map g := by
  cases h with
  | ok h => exact congrArg Except.ok (hfg _ _ h)
  | error e => rfl

end Agree

/-! ## What every result has -/

/-- Every result of the call has the property. -/
def Post (Q : α → Prop) (x : Res α) : Prop := ∀ a, x = .ok a → Q a

variable {y : Res α}

namespace Post

variable {P Q : α → Prop} {R : β → Prop} {x : Res α}

theorem ok (h : Q a) : Post Q (.ok a) := fun _ ha => Except.ok.inj ha ▸ h

theorem error (e : Fail) : Post Q (.error e) := nofun

theorem self : Post (fun a => x = .ok a) x := fun _ h => h

theorem bind (h : Post P x) (hf : ∀ a, P a → Post R (f a)) : Post R (x >>= f) := by
  intro b hb
  obtain ⟨a, ha, hfa⟩ := bind_eq_ok.mp hb
  exact hf a (h a ha) b hfa

theorem any (hf : ∀ a, Post R (f a)) : Post R (x >>= f) := self.bind fun a _ => hf a

theorem mono (h : Post P x) (hPQ : ∀ a, P a → Q a) : Post Q x := fun a ha => hPQ a (h a ha)

theorem and (h : Post P x) (h' : Post Q x) : Post (fun a => P a ∧ Q a) x := fun a ha => ⟨h a ha, h' a ha⟩

theorem ite [Decidable c] (h : c → Post Q x) (h' : ¬ c → Post Q y) : Post Q (if c then x else y) := by
  split
  · next hc => exact h hc
  · next hc => exact h' hc

end Post

/-- The call returns something with the property, or throws. -/
def Yields (Q : α → Prop) (x : Res α) : Prop := Graceful x ∧ Post Q x

theorem Yields.ok {Q : α → Prop} (h : Q a) : Yields Q (.ok a) := ⟨trivial, .ok h⟩

theorem Yields.throw {Q : α → Prop} (m : String) : Yields Q (throw m) := ⟨trivial, .error _⟩

/-- The result is `a`, except where `P` lets it fail. -/
def ReturnsUnless (P : Prop) (a : α) (x : Res α) : Prop := x = .ok a ∨ P ∧ ∃ e, x = .error e

namespace ReturnsUnless

variable {P : Prop}

theorem bind (h : ReturnsUnless P a x) (hf : ReturnsUnless P b (f a)) : ReturnsUnless P b (x >>= f) := by
  rcases h with rfl | ⟨hp, e, rfl⟩
  · exact hf
  · exact .inr ⟨hp, e, rfl⟩

theorem mono {Q : Prop} (h : ReturnsUnless P a x) (hPQ : P → Q) : ReturnsUnless Q a x :=
  h.imp_right (And.imp_left hPQ)

theorem eq_ok (h : ReturnsUnless P a x) (hp : ¬ P) : x = .ok a := h.resolve_right fun h' => hp h'.1

theorem inj {a' : α} (h : ReturnsUnless P a x) (hx : x = .ok a') : a' = a := by
  rcases h with h | ⟨-, e, h⟩
  · exact Except.ok.inj (hx.symm.trans h)
  · cases hx.symm.trans h

end ReturnsUnless

/-- Sequences that start in step are the same if they are from every result of the first half on. -/
theorem bind_same_iff {ι : Type} {x : ι → Res α} {f : ι → α → Res β} {g : α → Res β} {P : α → Prop}
    (h : ∀ i, Same P (x i) y) : (∀ i, (x i >>= f i) = (y >>= g)) ↔ ∀ a, y = .ok a → ∀ i, f i a = g a := by
  simp only [fun i => (h i).1]
  cases y with
  | error e => simp
  | ok a => simp

theorem not_forall_error : ¬ ∀ e, (.error e : Res α) = y := by
  intro h
  have h1 := h .fault
  rw [← h .hang] at h1
  cases h1

/-- A call with a check: it fails in the given way if the condition does not hold, and is the call
without otherwise. -/
structure Checked (K : Prop) (P : α → Prop) (bad : Fail) (x y : Res α) : Prop where
  same : K → Same P x y
  caught : ¬ K → x = .error bad

namespace Checked

variable {K K' : Prop} {P : α → Prop} {bad : Fail} {x : Res α}

theorem of_same (hk : K) (h : Same P x y) : Checked K P bad x y := ⟨fun _ => h, fun hn => absurd hk hn⟩

theorem congr (h : Checked K P bad x y) (hk : K ↔ K') : Checked K' P bad x y :=
  ⟨fun h' => h.same (hk.mpr h'), fun h' => h.caught fun hn => h' (hk.mp hn)⟩

theorem bind {Q : β → Prop} {f g : α → Res β} (h : Checked K P bad x y)
    (hf : ∀ a, P a → Same Q (f a) (g a)) : Checked K Q bad (x >>= f) (y >>= g) := by
  refine ⟨fun hk => (h.same hk).bind hf, fun hn => ?_⟩
  rw [h.caught hn, error_bind]

end Checked

theorem bind_checked_iff {x : Fail → Res α} {f : Fail → α → Res β} {g : α → Res β} {K : Prop}
    {P : α → Prop} (h : ∀ bad, Checked K P bad (x bad) y) :
    (∀ bad, (x bad >>= f bad) = (y >>= g)) ↔ K ∧ ∀ a, y = .ok a → ∀ bad, f bad a = g a := by
  by_cases hk : K
  · rw [and_iff_right hk, bind_same_iff fun bad => (h bad).same hk]
  · refine iff_of_false ?_ (fun h => hk h.1)
    simp only [fun bad => (h bad).caught hk, error_bind]
    exact not_forall_error

theorem bind_forall {Q : β → Prop} : (∀ b, (x >>= f) = .ok b → Q b) ↔ ∀ a, x = .ok a → ∀ b,
    f a = .ok b → Q b := by
  cases x with
  | error e => simp
  | ok a => simp

end Res
end Nxlog
