/-
A token carried by at most one of many parties.

Ownership that moves between threads and callbacks without a lock is carried by
program points: a party owns the resource exactly while it stands at one of certain
points of its code.  `AtMostOne Holds pc` says that no two parties stand at such
points, where `pc` gives every party's program point.  The parties may be any number.

A step moves one or two parties.  `AtMostOne.update` covers them all: the mover may
arrive at an owning point if no other party stands at one.  The rules after it are its
three ordinary uses: letting go, keeping, and taking a free token, and `transfer` is the
hand-over from one party to another.
-/
import Mathlib.Logic.Function.Basic

namespace Library

variable {ι φ : Type} [DecidableEq ι] {Holds : φ → Prop} {pc : ι → φ}

/-- No two parties stand at a point that holds the token. -/
def AtMostOne (Holds : φ → Prop) (pc : ι → φ) : Prop :=
  ∀ a b, Holds (pc a) → Holds (pc b) → a = b

namespace AtMostOne

theorem update (h : AtMostOne Holds pc) {a : ι} {f : φ}
    (hf : Holds f → ∀ b, b ≠ a → ¬Holds (pc b)) :
    AtMostOne Holds (Function.update pc a f) := by
  intro b c hb hc
  by_cases hba : b = a <;> by_cases hca : c = a
  · rw [hba, hca]
  · rw [hba, Function.update_self] at hb
    rw [Function.update_of_ne hca] at hc
    exact absurd hc (hf hb c hca)
  · rw [hca, Function.update_self] at hc
    rw [Function.update_of_ne hba] at hb
    exact absurd hb (hf hc b hba)
  · rw [Function.update_of_ne hba] at hb
    rw [Function.update_of_ne hca] at hc
    exact h b c hb hc

/-- A party may always move to a point that does not hold the token. -/
theorem drop (h : AtMostOne Holds pc) {a : ι} {f : φ} (hf : ¬Holds f) :
    AtMostOne Holds (Function.update pc a f) :=
  h.update fun hc => absurd hc hf

/-- The holder may move anywhere. -/
theorem keep (h : AtMostOne Holds pc) {a : ι} {f : φ} (ha : Holds (pc a)) :
    AtMostOne Holds (Function.update pc a f) :=
  h.update fun _ b hne hb => hne (h b a hb ha)

/-- A token nobody holds may be taken. -/
theorem take (h : AtMostOne Holds pc) {a : ι} {f : φ} (hfree : ∀ b, ¬Holds (pc b)) :
    AtMostOne Holds (Function.update pc a f) :=
  h.update fun _ b _ => hfree b

/-- The holder lets go and another party takes over in the same step. -/
theorem transfer (h : AtMostOne Holds pc) {a b : ι} {f g : φ} (ha : Holds (pc a))
    (hf : ¬Holds f) :
    AtMostOne Holds (Function.update (Function.update pc a f) b g) := by
  refine (h.drop hf).take fun c hc => ?_
  by_cases hca : c = a
  · rw [hca, Function.update_self] at hc
    exact hf hc
  · rw [Function.update_of_ne hca] at hc
    exact hca (h c a hc ha)

end AtMostOne

/-- Who holds after one party moved: the mover, or somebody who held before. -/
theorem holds_update {a b : ι} {f : φ} (h : Holds (Function.update pc a f b)) :
    Holds f ∨ (b ≠ a ∧ Holds (pc b)) := by
  by_cases hba : b = a
  · rw [hba, Function.update_self] at h
    exact Or.inl h
  · rw [Function.update_of_ne hba] at h
    exact Or.inr ⟨hba, h⟩

end Library
