/-
Reading at a position of a list of bytes.

Positions are integers, since a format may point backwards and before the start.  `LiesAt bytes pos
xs` says that `xs` is the stretch of `bytes` at `pos`, and `slice` takes a stretch of a given
length, if there is one.  `slice_eq_some` ties the two.  A number is stored with its low byte
first; `NumberAt` says that one lies at a position.
-/
import Mathlib.Data.Nat.Digits.Defs
import Mathlib.Data.List.Basic

namespace Library

variable {α : Type}

/-- The stretch `xs` lies in `bytes`, from `pos` on. -/
def LiesAt (bytes : List α) (pos : Int) (xs : List α) : Prop :=
  ∃ before after, bytes = before ++ (xs ++ after) ∧ (before.length : Int) = pos

/-- The `length` elements from `pos` on, if there are as many. -/
def slice (bytes : List α) (pos : Int) (length : Nat) : Option (List α) :=
  if 0 ≤ pos ∧ pos + length ≤ bytes.length then some ((bytes.drop pos.toNat).take length)
  else none

theorem LiesAt.nonneg {bytes xs : List α} {pos : Int} (h : LiesAt bytes pos xs) : 0 ≤ pos := by
  obtain ⟨before, _, _, hpos⟩ := h
  omega

theorem LiesAt.le {bytes xs : List α} {pos : Int} (h : LiesAt bytes pos xs) :
    pos + xs.length ≤ bytes.length := by
  obtain ⟨before, after, rfl, hpos⟩ := h
  simp only [List.length_append]
  omega

/-- A slice is what lies there. -/
theorem slice_eq_some {bytes xs : List α} {pos : Int} {length : Nat} :
    slice bytes pos length = some xs ↔ xs.length = length ∧ LiesAt bytes pos xs := by
  unfold slice
  refine ⟨?_, ?_⟩
  · intro h
    by_cases hin : 0 ≤ pos ∧ pos + length ≤ bytes.length
    · rw [if_pos hin] at h
      obtain rfl := Option.some.inj h
      refine ⟨?_, bytes.take pos.toNat, (bytes.drop pos.toNat).drop length, ?_, ?_⟩
      · rw [List.length_take, List.length_drop]
        omega
      · rw [List.take_append_drop, List.take_append_drop]
      · rw [List.length_take]
        omega
    · rw [if_neg hin] at h
      cases h
  · intro h
    obtain ⟨rfl, hlies⟩ := h
    rw [if_pos ⟨hlies.nonneg, hlies.le⟩]
    obtain ⟨before, after, rfl, hpos⟩ := hlies
    have hbefore : pos.toNat = before.length := by omega
    rw [hbefore, List.drop_left, List.take_left]

/-- The number with these bytes, the low one first. -/
def littleEndian (bytes : List UInt8) : Nat := Nat.ofDigits 256 (bytes.map UInt8.toNat)

/-- At `pos` lie `width` bytes that make the number `n`. -/
def NumberAt (bytes : List UInt8) (pos : Int) (width n : Nat) : Prop :=
  ∃ xs, xs.length = width ∧ LiesAt bytes pos xs ∧ littleEndian xs = n

/-! ### Stretches of a list that is put together -/

/-- What lies in a list lies behind anything that is put before it. -/
theorem LiesAt.append {bytes xs : List α} {pos : Int} (front : List α) (h : LiesAt bytes pos xs) :
    LiesAt (front ++ bytes) (front.length + pos) xs := by
  obtain ⟨before, after, rfl, hpos⟩ := h
  refine ⟨front ++ before, after, by rw [List.append_assoc], ?_⟩
  rw [List.length_append]
  omega

/-- A distance from the end is the same after the list has grown at the front. -/
theorem LiesAt.grow {bytes xs : List α} {off : Nat} (front : List α)
    (h : LiesAt bytes (bytes.length - off) xs) :
    LiesAt (front ++ bytes) ((front ++ bytes).length - off) xs := by
  have hpos : ((front ++ bytes).length : Int) - off = front.length + (bytes.length - off) := by
    rw [List.length_append]
    omega
  rw [hpos]
  exact h.append front

/-- What starts behind the front of a list lies in the rest of it. -/
theorem LiesAt.shrink {front bytes xs : List α} {off : Nat}
    (h : LiesAt (front ++ bytes) ((front ++ bytes).length - off) xs) (hoff : off ≤ bytes.length) :
    LiesAt bytes (bytes.length - off) xs := by
  obtain ⟨before, after, heq, hpos⟩ := h
  rw [List.length_append] at hpos
  have hfront : front.length ≤ before.length := by omega
  refine ⟨before.drop front.length, after, ?_, ?_⟩
  · have hdrop := congrArg (List.drop front.length) heq
    rw [List.drop_left, List.drop_append_of_le_length hfront] at hdrop
    exact hdrop
  · rw [List.length_drop]
    omega

theorem LiesAt.left {bytes xs ys : List α} {pos : Int} (h : LiesAt bytes pos (xs ++ ys)) :
    LiesAt bytes pos xs := by
  obtain ⟨before, after, hbytes, hpos⟩ := h
  exact ⟨before, ys ++ after, by rw [hbytes, List.append_assoc], hpos⟩

theorem LiesAt.right {bytes xs ys : List α} {pos : Int} (h : LiesAt bytes pos (xs ++ ys)) :
    LiesAt bytes (pos + xs.length) ys := by
  obtain ⟨before, after, hbytes, hpos⟩ := h
  refine ⟨before ++ xs, after, by simp only [hbytes, List.append_assoc], ?_⟩
  rw [List.length_append]
  omega

/-! ### Numbers as bytes -/

/-- The `width` low bytes of `n`, the lowest first. -/
def toLittleEndian : Nat → Nat → List UInt8
  | 0, _ => []
  | width + 1, n => UInt8.ofNat n :: toLittleEndian width (n / 256)

@[simp] theorem length_toLittleEndian (width n : Nat) :
    (toLittleEndian width n).length = width := by
  induction width generalizing n with
  | zero => rfl
  | succ width ih => rw [toLittleEndian, List.length_cons, ih]

theorem littleEndian_cons (byte : UInt8) (bytes : List UInt8) :
    littleEndian (byte :: bytes) = byte.toNat + 256 * littleEndian bytes := by
  unfold littleEndian
  rw [List.map_cons, Nat.ofDigits_cons]

/-- Bytes above the width are lost. -/
theorem littleEndian_toLittleEndian (width n : Nat) :
    littleEndian (toLittleEndian width n) = n % 256 ^ width := by
  induction width generalizing n with
  | zero => rw [Nat.pow_zero, Nat.mod_one]; rfl
  | succ width ih =>
      have hbyte : (UInt8.ofNat n).toNat = n % 256 := rfl
      rw [toLittleEndian, littleEndian_cons, ih, hbyte, Nat.pow_succ', Nat.mod_mul]

/-- The bytes of a number that fits make the number. -/
theorem LiesAt.numberAt {bytes : List UInt8} {pos : Int} {width n : Nat}
    (h : LiesAt bytes pos (toLittleEndian width n)) (hfits : n < 256 ^ width) :
    NumberAt bytes pos width n := by
  refine ⟨_, length_toLittleEndian width n, h, ?_⟩
  rw [littleEndian_toLittleEndian, Nat.mod_eq_of_lt hfits]

end Library
