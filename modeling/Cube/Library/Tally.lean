/-
Adding up over parties that move one at a time.

A measure of a concurrent state is often a sum: every party contributes a weight that depends only
on the point it stands at.  `tally ids w pc` is that sum over the parties in `ids`.  A step that
moves one party changes it by the weights of the two points (`tally_update`), and a party that joins
adds its own (`tally_insert`).  With the weight one at some points and zero at the others the tally
counts the parties there, with larger weights it bounds the steps they still make.
-/
import Mathlib.Algebra.BigOperators.Group.Finset.Piecewise
import Mathlib.Algebra.BigOperators.Ring.Finset
import Mathlib.Algebra.Order.BigOperators.Group.Finset

namespace Library

variable {ι φ : Type}

/-- The weights of the points at which the parties stand, added up. -/
def tally (ids : Finset ι) (w : φ → Nat) (pc : ι → φ) : Nat := ∑ i ∈ ids, w (pc i)

variable {ids : Finset ι} {w v : φ → Nat} {pc : ι → φ}

/-- A tally of nothing but zeros. -/
theorem tally_eq_zero : tally ids w pc = 0 ↔ ∀ i ∈ ids, w (pc i) = 0 := Finset.sum_eq_zero_iff

/-- No party contributes more than all of them. -/
theorem weight_le_tally (w : φ → Nat) (pc : ι → φ) {a : ι} (ha : a ∈ ids) :
    w (pc a) ≤ tally ids w pc :=
  Finset.single_le_sum (f := fun i => w (pc i)) (fun _ _ => Nat.zero_le _) ha

/-- A weight bounded by a multiple of another. -/
theorem tally_le {c : Nat} (h : ∀ f, w f ≤ c * v f) : tally ids w pc ≤ c * tally ids v pc := by
  unfold tally
  rw [Finset.mul_sum]
  exact Finset.sum_le_sum fun i _ => h (pc i)

variable [DecidableEq ι]

/-- One party moves. -/
theorem tally_update (w : φ → Nat) (pc : ι → φ) {a : ι} (ha : a ∈ ids) (f : φ) :
    tally ids w (Function.update pc a f) + w (pc a) = tally ids w pc + w f := by
  have hweights : ∀ i, w (Function.update pc a f i) = Function.update (w ∘ pc) a (w f) i := by
    intro i
    rw [← Function.comp_update]
    rfl
  have hold : tally ids w pc = w (pc a) + ∑ i ∈ ids \ {a}, (w ∘ pc) i :=
    Finset.sum_eq_add_sum_sdiff_singleton_of_mem ha _
  have hnew : tally ids w (Function.update pc a f) = w f + ∑ i ∈ ids \ {a}, (w ∘ pc) i := by
    unfold tally
    rw [Finset.sum_congr rfl fun i _ => hweights i]
    exact Finset.sum_update_of_mem ha _ _
  omega

/-- A party joins. -/
theorem tally_insert (w : φ → Nat) (pc : ι → φ) {a : ι} (ha : a ∉ ids) (f : φ) :
    tally (insert a ids) w (Function.update pc a f) = tally ids w pc + w f := by
  unfold tally
  rw [Finset.sum_insert ha, Function.update_self, Nat.add_comm]
  congr 1
  apply Finset.sum_congr rfl
  intro i hi
  have hne : i ≠ a := fun heq => ha (heq ▸ hi)
  rw [Function.update_of_ne hne]

end Library
