import Mathlib.Logic.Relation
import Mathlib.Order.Basic

/-!
# Acyclic relations with identified elements

Some elements stand for one and the same event. A relation has no cycle modulo the identification
when no element is reached from itself by steps that may change to an identified element first.

## Main definitions

* `AcyclicModulo same prec`: there is no cycle of `prec` modulo `same`

## Main results

* `acyclicModulo_of_key`: a key that grows along the relation and that identified elements share
-/

namespace Relation

variable {α β : Type*} {same prec : α → α → Prop} {x y : α}

/-- A step from an element that is identified with `x`. -/
def StepModulo (same prec : α → α → Prop) (x y : α) : Prop :=
  ∃ x', EqvGen same x x' ∧ prec x' y

def AcyclicModulo (same prec : α → α → Prop) : Prop := ∀ x, ¬ TransGen (StepModulo same prec) x x

/-- Elements that are identified in some steps share a key that identified elements share. -/
theorem key_eq_of_eqvGen {key : α → β} (hsame : ∀ x y, same x y → key x = key y)
    (h : EqvGen same x y) : key x = key y := by
  induction h with
  | rel x y hxy => exact hsame x y hxy
  | refl x => rfl
  | symm x y _ ih => exact ih.symm
  | trans x y z _ _ ihxy ihyz => exact ihxy.trans ihyz

variable [Preorder β]

/-- **No cycle**: the key grows along the relation and does not change under the identification. -/
theorem acyclicModulo_of_key (key : α → β) (hsame : ∀ x y, same x y → key x = key y)
    (hprec : ∀ x y, prec x y → key x < key y) : AcyclicModulo same prec := by
  have hstep : ∀ x y, StepModulo same prec x y → key x < key y := by
    rintro x y ⟨x', hx, hxy⟩
    rw [key_eq_of_eqvGen hsame hx]
    exact hprec x' y hxy
  have hpath : ∀ x y, TransGen (StepModulo same prec) x y → key x < key y := by
    intro x y h
    induction h with
    | single h => exact hstep _ _ h
    | tail _ h ih => exact ih.trans (hstep _ _ h)
  exact fun x h => lt_irrefl (key x) (hpath x x h)

end Relation
