/-
`ReadPtr` and `WriterPtr` against the lengths.

The pointers are linear and the contents are circular.  `ReadableBytes()` counts the unread bytes
on both sides of the end of the storage, and `WritableBytes()` the free ones, so the two lengths fit
the pointers only while neither stretch wraps.
-/
import Cube.Core.Buffer.Transfer

namespace Core.RingBuffer

open Library

variable {rb : RingBuffer} {C : Nat} {q : Fifo UInt8 C}

/-- The `length` bytes a caller finds from index `pos` on. -/
def bytesAt (rb : RingBuffer) (pos length : Nat) : List UInt8 :=
  (rb.buffer.toList.drop pos).take length

/-- The `ReadableBytes()` bytes from `ReadPtr()` on lie in the storage and are the unread ones in
order.  The `WritableBytes()` bytes from `WriterPtr()` on lie in the storage, and none of them is in
the slot of an unread one. -/
structure PointersConsistent (rb : RingBuffer) : Prop where
  readInside : rb.readPos.toNat + rb.readableBytes.toNat ≤ rb.buffer.size
  writeInside : rb.writePos.toNat + rb.writableBytes.toNat ≤ rb.buffer.size
  readPtr : rb.readPtr = .ok rb.readPos
  writerPtr : rb.writerPtr = .ok rb.writePos
  unread : ∀ (C : Nat) (q : Fifo UInt8 C), Represents rb q →
    rb.bytesAt rb.readPos.toNat rb.readableBytes.toNat = q.items
  apart : ∀ slot, rb.writePos.toNat ≤ slot →
    slot < rb.writePos.toNat + rb.writableBytes.toNat →
    ∀ i, i < rb.readableBytes.toNat → slot ≠ (rb.readPos.toNat + i) % rb.buffer.size

/-- Neither stretch wraps exactly when one of the two begins at the start of the storage. -/
theorem Represents.inside_iff (h : Represents rb q) (hC : 0 < C) :
    rb.readPos.toNat + q.items.length ≤ C ∧ rb.writePos.toNat + q.free ≤ C ↔
      rb.readPos.toNat = 0 ∨ rb.writePos.toNat = 0 := by
  have hlen := q.bounded
  have hfree : q.free = C - q.items.length := rfl
  have hwrite := h.writePos
  rcases wrap_cases (h.readPos hC) hlen with ⟨_, hw⟩ | ⟨_, hw⟩
  · refine ⟨?_, ?_⟩
    · intro hinside
      left
      omega
    · intro hstart
      omega
  · refine ⟨?_, ?_⟩
    · intro hinside
      right
      omega
    · intro hstart
      omega

/-- Stretches that do not wrap are what the pointers and the lengths say. -/
theorem Represents.pointersConsistent (h : Represents rb q) (hC : 0 < C)
    (hin : rb.readPos.toNat + q.items.length ≤ C) (hin' : rb.writePos.toNat + q.free ≤ C) :
    PointersConsistent rb := by
  have hread := h.readPos hC
  have hwrite := h.writePos_lt hC
  have hlen := q.bounded
  have hfree : q.free = C - q.items.length := rfl
  refine ⟨?_, ?_, if_pos (h.size ▸ hread), if_pos (h.size ▸ hwrite), ?_, ?_⟩
  · rwa [h.readableBytes, h.size]
  · rwa [h.writableBytes, h.size]
  · intro C₁ q₁ hq₁
    unfold bytesAt
    rw [hq₁.readableBytes]
    apply hq₁.window.contiguous
    rw [← hq₁.readableBytes, h.readableBytes, h.size]
    exact hin
  · intro slot hlow hhigh i hi
    rw [h.writableBytes] at hhigh
    rw [h.readableBytes] at hi
    rw [h.size, Nat.mod_eq_of_lt (by omega)]
    have hend := h.writePos
    rcases wrap_cases hread hlen with ⟨_, hw⟩ | ⟨_, hw⟩ <;> omega

/-- **When the pointers fit the lengths**: in the states in which one of the positions is zero. -/
theorem pointersConsistent_iff (capacity : UInt64) (hC : 1 ≤ capacity) (rb : RingBuffer)
    (h : Reached capacity rb) :
    PointersConsistent rb ↔ rb.readPos = 0 ∨ rb.writePos = 0 := by
  obtain ⟨q, hq⟩ := h.represents
  have hpos : 0 < capacity.toNat := UInt64.le_iff_toNat_le.mp hC
  have hstart : rb.readPos = 0 ∨ rb.writePos = 0 ↔
      rb.readPos.toNat = 0 ∨ rb.writePos.toNat = 0 := by
    rw [← UInt64.toNat_inj, ← UInt64.toNat_inj]
    rfl
  rw [hstart, ← hq.inside_iff hpos]
  refine ⟨?_, ?_⟩
  · intro hptr
    have hin := hptr.readInside
    have hin' := hptr.writeInside
    rw [hq.readableBytes, hq.size] at hin
    rw [hq.writableBytes, hq.size] at hin'
    exact ⟨hin, hin'⟩
  · intro hinside
    exact hq.pointersConsistent hpos hinside.1 hinside.2

/-- After three bytes in and two out, one free slot is at the end and two are at the start.  The
three bytes from `WriterPtr()` on would end two bytes behind the storage. -/
theorem writerPtr_past_the_end :
    Reached 4 ⟨#[7, 8, 9, 0], 4, 2, 3, false⟩ ∧
      (⟨#[7, 8, 9, 0], 4, 2, 3, false⟩ : RingBuffer).writerPtr = .ok 3 ∧
      (⟨#[7, 8, 9, 0], 4, 2, 3, false⟩ : RingBuffer).writableBytes = 3 ∧
      ¬PointersConsistent ⟨#[7, 8, 9, 0], 4, 2, 3, false⟩ := by
  refine ⟨⟨⟨#[0, 0, 0, 0], 4, 0, 0, false⟩, [.write [7, 8, 9], .read 2],
    [.written 3, .read 2 [7, 8]], rfl, rfl⟩, rfl, by decide, ?_⟩
  intro hptr
  exact absurd hptr.writeInside (by decide)

/-- Three bytes of a new buffer. -/
theorem pointersConsistent_three : PointersConsistent ⟨#[7, 8, 9, 0], 4, 0, 3, false⟩ :=
  (pointersConsistent_iff 4 (by decide) ⟨#[7, 8, 9, 0], 4, 0, 3, false⟩
    ⟨⟨#[0, 0, 0, 0], 4, 0, 0, false⟩, [.write [7, 8, 9]], [.written 3], rfl, rfl⟩).mpr
    (by decide)

end Core.RingBuffer
