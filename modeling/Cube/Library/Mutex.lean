/-
A mutex seen through program points.

A lock held for a scope is held at certain points of the code: a party is inside exactly
while it stands at one of them.  `Locked Inside pc owner` says that the mutex and the program
points agree.  It gives mutual exclusion at once, and three rules keep it along a run: a party
takes the free mutex and enters, an insider leaves and frees it, and anybody moves without
crossing the border.
-/
import Mathlib.Logic.Function.Basic

namespace Library

variable {ι φ : Type}

/-- The party inside is the owner of the mutex. -/
def Locked (Inside : φ → Prop) (pc : ι → φ) (owner : Option ι) : Prop :=
  ∀ a, Inside (pc a) ↔ owner = some a

namespace Locked

variable {Inside : φ → Prop} {pc : ι → φ} {owner : Option ι}

/-- **Mutual exclusion.** -/
theorem exclusive (h : Locked Inside pc owner) {a b : ι} (ha : Inside (pc a))
    (hb : Inside (pc b)) : a = b :=
  Option.some.inj (((h a).mp ha).symm.trans ((h b).mp hb))

theorem outside_of_free (h : Locked Inside pc none) (a : ι) : ¬Inside (pc a) :=
  fun ha => nomatch (h a).mp ha

variable [DecidableEq ι]

/-- A party takes the free mutex and goes inside. -/
theorem acquire (h : Locked Inside pc none) {a : ι} {f : φ} (hf : Inside f) :
    Locked Inside (Function.update pc a f) (some a) := by
  intro b
  by_cases hb : b = a
  · subst hb
    simpa using hf
  · have hout := h.outside_of_free b
    rw [Function.update_of_ne hb]
    simp [hout, Ne.symm hb]

/-- A party inside goes out and frees the mutex. -/
theorem release (h : Locked Inside pc owner) {a : ι} {f : φ} (ha : Inside (pc a))
    (hf : ¬Inside f) : Locked Inside (Function.update pc a f) none := by
  intro b
  by_cases hb : b = a
  · subst hb
    simpa using hf
  · have hout : ¬Inside (pc b) := fun hin => hb (h.exclusive hin ha)
    rw [Function.update_of_ne hb]
    simp [hout]

/-- A party moves and stays on its side. -/
theorem move (h : Locked Inside pc owner) {a : ι} {f : φ} (hf : Inside f ↔ Inside (pc a)) :
    Locked Inside (Function.update pc a f) owner := by
  intro b
  by_cases hb : b = a
  · subst hb
    rw [Function.update_self, hf]
    exact h b
  · rw [Function.update_of_ne hb]
    exact h b

end Locked

end Library
