/-
The contents of circular storage.

A circular buffer keeps a list in an array without moving it: the elements lie in consecutive
slots from a position on, and the slot after the last one is the first.  `Window store pos q`
says that `q` lies in `store` from `pos` on.  It speaks only of the slots of `q`; what the others
hold does not matter, and where the next element goes is not part of it either.

Elements come in at the end (`Window.snoc`) and leave at the front (`Window.head`,
`Window.tail`).  The one fact about wrapping behind them is `slot_ne`: two places less than a
whole turn apart are two different slots.

Two functions go along with it.  `slots store pos n` reads `n` consecutive slots, and
`place store pos xs` stores `xs` into consecutive slots, whether or not something lies there.
-/
import Mathlib.Data.Nat.ModEq

namespace Library

variable {α : Type}

/-- The list `q` lies in `store` from the slot `pos` on, wrapping at the end. -/
structure Window (store : Array α) (pos : Nat) (q : List α) : Prop where
  fits : q.length ≤ store.size
  slot : ∀ i, (h : i < q.length) → store[(pos + i) % store.size]? = some q[i]

/-- Places of the window less than a turn apart lie in different slots. -/
theorem slot_ne {pos i j size : Nat} (hij : i < j) (hj : j < i + size) :
    (pos + i) % size ≠ (pos + j) % size := by
  intro heq
  have hmod : i ≡ j [MOD size] := Nat.ModEq.add_left_cancel' pos heq
  have hdvd : size ∣ j - i := (Nat.modEq_iff_dvd' hij.le).mp hmod
  have hle : size ≤ j - i := Nat.le_of_dvd (by omega) hdvd
  omega

namespace Window

theorem nil (store : Array α) (pos : Nat) : Window store pos [] where
  fits := Nat.zero_le _
  slot := fun _ h => absurd h (Nat.not_lt_zero _)

/-- An element stored in the slot after the last one. -/
theorem snoc {store : Array α} {pos : Nat} {q : List α} (h : Window store pos q)
    (hroom : q.length < store.size) (a : α) :
    Window (store.setIfInBounds ((pos + q.length) % store.size) a) pos (q ++ [a]) where
  fits := by
    rw [List.length_append, Array.size_setIfInBounds]
    exact hroom
  slot := by
    intro i hi
    have hsize : 0 < store.size := Nat.zero_lt_of_lt hroom
    have hlen : i < q.length + 1 := by simpa using hi
    rw [Array.size_setIfInBounds]
    rcases Nat.lt_succ_iff_lt_or_eq.mp hlen with hlt | rfl
    · have hne : (pos + q.length) % store.size ≠ (pos + i) % store.size :=
        (slot_ne hlt (by omega)).symm
      rw [Array.getElem?_setIfInBounds_ne hne, h.slot i hlt, List.getElem_append_left hlt]
    · rw [Array.getElem?_setIfInBounds_self_of_lt (Nat.mod_lt _ hsize)]
      simp

/-- The first element is in the slot the window starts at. -/
theorem head {store : Array α} {pos : Nat} {a : α} {q : List α} (h : Window store pos (a :: q)) :
    store[pos % store.size]? = some a := by
  have hzero := h.slot 0 (by simp)
  simpa using hzero

/-- Without its first element the window starts one slot later. -/
theorem tail {store : Array α} {pos : Nat} {a : α} {q : List α} (h : Window store pos (a :: q)) :
    Window store ((pos + 1) % store.size) q where
  fits := Nat.le_of_succ_le h.fits
  slot := by
    intro i hi
    have hnext := h.slot (i + 1) (by simpa using hi)
    have hpos : ((pos + 1) % store.size + i) % store.size = (pos + (i + 1)) % store.size := by
      rw [Nat.mod_add_mod]
      congr 1
      omega
    rw [hpos, hnext]
    simp

end Window

/-! ### Reading consecutive slots -/

/-- The elements in `n` consecutive slots from `pos` on, wrapping at the end. -/
def slots [Inhabited α] (store : Array α) (pos n : Nat) : List α :=
  (List.range n).map fun i => store.getD ((pos + i) % store.size) default

section Slots

variable [Inhabited α] {store : Array α} {pos n : Nat}

@[simp] theorem slots_length : (slots store pos n).length = n := by simp [slots]

theorem slots_getElem {i : Nat} (h : i < (slots store pos n).length) :
    (slots store pos n)[i] = store.getD ((pos + i) % store.size) default := by
  simp [slots]

theorem slots_zero : slots store pos 0 = [] := rfl

/-- The first slot, and those after it. -/
theorem slots_succ : slots store pos (n + 1)
    = store.getD (pos % store.size) default :: slots store ((pos + 1) % store.size) n := by
  unfold slots
  rw [List.range_succ_eq_map, List.map_cons, List.map_map, Nat.add_zero]
  congr 1
  apply List.map_congr_left
  intro i _
  rw [Nat.mod_add_mod]
  simp only [Function.comp, Nat.succ_eq_add_one]
  congr 2
  omega

theorem slots_take (k : Nat) : (slots store pos n).take k = slots store pos (min k n) := by
  simp [slots, ← List.map_take, List.take_range]

/-- Only the slot of the position matters. -/
theorem slots_congr {pos' : Nat} (h : pos % store.size = pos' % store.size) :
    slots store pos n = slots store pos' n := by
  unfold slots
  apply List.map_congr_left
  intro i _
  exact congrArg (store.getD · default) (Nat.ModEq.add_right i h)

theorem getElem?_eq_getD (hsize : 0 < store.size) (i : Nat) :
    store[i % store.size]? = some (store.getD (i % store.size) default) := by
  have hlt := Nat.mod_lt i hsize
  simp [Array.getD_eq_getD_getElem?, hlt]

/-- What lies in consecutive slots is a window. -/
theorem Window.slots (hn : n ≤ store.size) : Window store pos (slots store pos n) where
  fits := by rwa [slots_length]
  slot := by
    intro i hi
    have hlt : i < n := by simpa using hi
    rw [slots_getElem hi, getElem?_eq_getD (by omega)]

/-- A window is what its slots hold. -/
theorem Window.eq_slots {q : List α} (h : Window store pos q) :
    q = Library.slots store pos q.length := by
  apply List.ext_getElem (by simp)
  intro i hi hi'
  have hslot := h.slot i hi
  rw [slots_getElem hi']
  rw [getElem?_eq_getD (by have := h.fits; omega)] at hslot
  exact (Option.some.inj hslot).symm

end Slots

/-- The first elements of a window. -/
theorem Window.init {store : Array α} {pos : Nat} {q r : List α}
    (h : Window store pos (q ++ r)) : Window store pos q where
  fits := by
    have hfits := h.fits
    rw [List.length_append] at hfits
    omega
  slot := by
    intro i hi
    have hslot := h.slot i (by rw [List.length_append]; omega)
    rwa [List.getElem_append_left hi] at hslot

/-- Two windows, the second from the slot after the first. -/
theorem Window.append {store : Array α} {pos : Nat} {q r : List α} (hq : Window store pos q)
    (hr : Window store (pos + q.length) r) (hfits : q.length + r.length ≤ store.size) :
    Window store pos (q ++ r) where
  fits := by rwa [List.length_append]
  slot := by
    intro i hi
    rw [List.length_append] at hi
    rcases Nat.lt_or_ge i q.length with hlt | hge
    · rw [List.getElem_append_left hlt]
      exact hq.slot i hlt
    · have hslot := hr.slot (i - q.length) (by omega)
      rw [List.getElem_append_right hge, ← hslot]
      congr 2
      omega

/-- A window that does not wrap is a stretch of the storage. -/
theorem Window.contiguous {store : Array α} {pos : Nat} {q : List α} (h : Window store pos q)
    (hend : pos + q.length ≤ store.size) : (store.toList.drop pos).take q.length = q := by
  apply List.ext_getElem
  · simp
    omega
  · intro i hi hi'
    have hslot := h.slot i hi'
    rw [Nat.mod_eq_of_lt (by omega), Array.getElem?_eq_getElem (by omega)] at hslot
    simpa using Option.some.inj hslot

/-! ### Storing into consecutive slots -/

/-- `xs` stored into consecutive slots from `pos` on, wrapping at the end. -/
def place (store : Array α) (pos : Nat) : List α → Array α
  | [] => store
  | a :: xs => place (store.setIfInBounds (pos % store.size) a) (pos + 1) xs

@[simp] theorem place_nil (store : Array α) (pos : Nat) : place store pos [] = store := rfl

@[simp] theorem place_size (xs : List α) :
    ∀ (store : Array α) (pos : Nat), (place store pos xs).size = store.size := by
  induction xs with
  | nil => intro store pos; rfl
  | cons a xs ih =>
      intro store pos
      unfold place
      rw [ih, Array.size_setIfInBounds]

/-- Only the slot of the position matters. -/
theorem place_congr (xs : List α) :
    ∀ (store : Array α) {pos pos' : Nat}, pos % store.size = pos' % store.size →
      place store pos xs = place store pos' xs := by
  induction xs with
  | nil => intro store pos pos' _; rfl
  | cons a xs ih =>
      intro store pos pos' h
      unfold place
      rw [h]
      apply ih
      rw [Array.size_setIfInBounds]
      exact Nat.ModEq.add_right 1 h

theorem place_append (xs ys : List α) :
    ∀ (store : Array α) (pos : Nat),
      place store pos (xs ++ ys) = place (place store pos xs) (pos + xs.length) ys := by
  induction xs with
  | nil => intro store pos; rfl
  | cons a xs ih =>
      intro store pos
      simp only [List.cons_append, place, List.length_cons, ih]
      congr 1
      omega

/-- A window, and elements stored from the slot after it on. -/
theorem Window.place (xs : List α) :
    ∀ {store : Array α} {pos : Nat} {q : List α}, Window store pos q →
      q.length + xs.length ≤ store.size →
        Window (place store (pos + q.length) xs) pos (q ++ xs) := by
  induction xs with
  | nil => intro store pos q h _; simpa using h
  | cons a xs ih =>
      intro store pos q h hfits
      rw [List.length_cons] at hfits
      have hsnoc := h.snoc (by omega) a
      have hrest := ih hsnoc (by simp; omega)
      rwa [List.length_append, List.length_singleton, List.append_assoc, List.singleton_append,
        ← Nat.add_assoc] at hrest

end Library
