/-
What `Write` and `Read` do to the buffer they are called on.

`Represents` says what a buffer holds, and leaves open what the slots outside it contain.  Here the
whole state is followed: `Read` leaves the storage and `_writePos` alone, `Write` leaves `_readPos`
alone and stores its bytes from `_writePos` on.  Nothing more is needed, because the contents with
one of the positions fix the other position and the flag (`Represents.ext`).
-/
import Cube.Core.Buffer.BoundedFifo

namespace Core.RingBuffer

open Library

/-- Calls of `Write` and `Read` on a new buffer lead to `rb`. -/
def Reached (capacity : UInt64) (rb : RingBuffer) : Prop :=
  ∃ rb₀ calls outs, construct capacity = .ok rb₀ ∧ rb₀.run calls = .ok (rb, outs)

theorem Reached.represents {capacity : UInt64} {rb : RingBuffer} (h : Reached capacity rb) :
    ∃ q : Fifo UInt8 capacity.toNat, Represents rb q := by
  obtain ⟨rb₀, calls, outs, hnew, hrun⟩ := h
  obtain ⟨rb', outs', hrun', h', -⟩ := run_represents calls (construct_represents hnew)
  rw [hrun] at hrun'
  cases hrun'
  exact ⟨_, h'⟩

theorem Reached.fits {capacity : UInt64} {rb : RingBuffer} (h : Reached capacity rb) :
    capacity.toNat ≤ 0x7FFFFFFFFFFFFFFF := by
  obtain ⟨rb₀, _, _, hnew, _⟩ := h
  unfold construct at hnew
  split at hnew
  · exact UInt64.le_iff_toNat_le.mp ‹_›
  · cases hnew

variable {rb rb' : RingBuffer} {C : Nat} {q q' : Fifo UInt8 C}

/-! ### The state behind the contents -/

namespace Represents

theorem writePos_lt (h : Represents rb q) (hC : 0 < C) : rb.writePos.toNat < C := by
  rw [h.writePos]
  exact Nat.mod_lt _ hC

/-- `_writePos` is the slot after the contents. -/
theorem next_slot (h : Represents rb q) :
    rb.writePos.toNat % rb.buffer.size = (rb.readPos.toNat + q.items.length) % rb.buffer.size := by
  rw [h.size, h.writePos, Nat.mod_mod]

theorem capacity_ne_zero (h : Represents rb q) (hC : 0 < C) : rb.capacity ≠ 0 := by
  intro hzero
  have hcap := h.capacity
  rw [hzero] at hcap
  exact absurd hcap (Nat.ne_of_lt hC)

/-- Storage, `_readPos` and the amount held determine the buffer. -/
theorem ext (h : Represents rb q) (h' : Represents rb' q')
    (hlen : q.items.length = q'.items.length) (hbuffer : rb.buffer = rb'.buffer)
    (hread : rb.readPos = rb'.readPos) : rb = rb' := by
  have hcap : rb.capacity = rb'.capacity := by
    rw [← UInt64.toNat_inj, h.capacity, h'.capacity]
  have hwrite : rb.writePos = rb'.writePos := by
    rw [← UInt64.toNat_inj, h.writePos, h'.writePos, hread, hlen]
  have hfull : rb.isFull = rb'.isFull := by
    rw [Bool.eq_iff_iff, h.isFull, h'.isFull, hlen]
  cases rb
  cases rb'
  simp_all

/-- `_writePos` and the amount held determine `_readPos`. -/
theorem readPos_eq (h : Represents rb q) (h' : Represents rb' q')
    (hlen : q.items.length = q'.items.length) (hwrite : rb.writePos = rb'.writePos) :
    rb.readPos = rb'.readPos := by
  rcases Nat.eq_zero_or_pos C with hzero | hC
  · rw [h.start hzero, h'.start hzero]
  · have hmod : rb.readPos.toNat + q.items.length ≡ rb'.readPos.toNat + q.items.length [MOD C] := by
      have heq := h.writePos.symm.trans ((congrArg UInt64.toNat hwrite).trans h'.writePos)
      rwa [← hlen] at heq
    have hcancel := Nat.ModEq.add_right_cancel' _ hmod
    rw [← UInt64.toNat_inj]
    exact Nat.ModEq.eq_of_lt_of_lt hcancel (h.readPos hC) (h'.readPos hC)

/-- The amount held is at least `n` bytes, as the buffer says it. -/
theorem le_readableBytes (h : Represents rb q) {n : UInt64} :
    n ≤ rb.readableBytes ↔ n.toNat ≤ q.items.length := by
  rw [UInt64.le_iff_toNat_le, h.readableBytes]

theorem readableBytes_eq_zero (h : Represents rb q) :
    rb.readableBytes = 0 ↔ q.items.length = 0 := by
  rw [← UInt64.toNat_inj, h.readableBytes]
  rfl

theorem le_writableBytes (h : Represents rb q) {n : UInt64} :
    n ≤ rb.writableBytes ↔ n.toNat ≤ q.free := by
  rw [UInt64.le_iff_toNat_le, h.writableBytes]

/-- A buffer holds one list of bytes only. -/
theorem items_eq (h : Represents rb q) (h' : Represents rb q') : q.items = q'.items := by
  rw [h.window.eq_slots, h'.window.eq_slots, ← h.readableBytes, h'.readableBytes]

end Represents

/-! ### Frames -/

theorem readByte_frame {byte : UInt8} (h : rb.readByte = .ok (rb', byte)) :
    rb'.buffer = rb.buffer ∧ rb'.writePos = rb.writePos := by
  simp only [readByte, bind, Except.bind] at h
  split at h
  · cases h
  · split at h
    · cases h
    · cases h
      exact ⟨rfl, rfl⟩

/-- `Read` changes neither the storage nor `_writePos`. -/
theorem readLoop_frame (remaining : Nat) :
    ∀ {rb rb' : RingBuffer} {read count : UInt64} {dest dest' : List UInt8},
      rb.readLoop read dest remaining = .ok (rb', count, dest') →
        rb'.buffer = rb.buffer ∧ rb'.writePos = rb.writePos := by
  induction remaining with
  | zero =>
      intro rb rb' read count dest dest' h
      cases h
      exact ⟨rfl, rfl⟩
  | succ n ih =>
      intro rb rb' read count dest dest' h
      unfold readLoop at h
      split at h
      · cases hbyte : rb.readByte with
        | error e =>
            rw [hbyte] at h
            cases h
        | ok out =>
            rw [hbyte] at h
            have hstep := readByte_frame hbyte
            have hrest := ih h
            exact ⟨hrest.1.trans hstep.1, hrest.2.trans hstep.2⟩
      · cases h
        exact ⟨rfl, rfl⟩

theorem writeByte_frame {byte : UInt8} (h : rb.writeByte byte = .ok rb') :
    rb'.readPos = rb.readPos ∧
      rb'.buffer = rb.buffer.setIfInBounds rb.writePos.toNat byte := by
  unfold writeByte store at h
  split at h
  · simp only [bind, Except.bind] at h
    split at h
    · cases h
    · cases h
      exact ⟨rfl, rfl⟩
  · cases h

/-- `Write` of bytes that fit leaves `_readPos` alone and stores the bytes from `_writePos` on. -/
theorem writeLoop_place (src : List UInt8) :
    ∀ {rb rb' : RingBuffer} {q : Fifo UInt8 C} {written count : UInt64}, Represents rb q →
      src.length ≤ q.free → rb.writeLoop written src = .ok (rb', count) →
        rb'.readPos = rb.readPos ∧ rb'.buffer = place rb.buffer rb.writePos.toNat src := by
  induction src with
  | nil =>
      intro rb rb' q written count _ _ hloop
      cases hloop
      exact ⟨rfl, rfl⟩
  | cons byte rest ih =>
      intro rb rb' q written count h hfits hloop
      rw [List.length_cons] at hfits
      have hroom : q.items.length < C := Fifo.lt_capacity.mpr (by omega)
      have hfree : rb.writableBytes > 0 := by
        rw [gt_iff_lt, UInt64.lt_iff_toNat_lt, h.writableBytes]
        exact Fifo.lt_capacity.mp hroom
      obtain ⟨rb₁, hbyte, h₁⟩ := h.writeByte hroom byte
      obtain ⟨hread₁, hbuffer₁⟩ := writeByte_frame hbyte
      rw [writeLoop, if_pos hfree, hbyte] at hloop
      have hfits₁ : rest.length ≤ (q.push byte hroom).free := by
        rw [q.push_free byte hroom] at hfits
        omega
      obtain ⟨hread, hbuffer⟩ := ih h₁ hfits₁ hloop
      refine ⟨hread.trans hread₁, ?_⟩
      have hwlt := h.writePos_lt (Nat.zero_lt_of_lt hroom)
      -- the next byte goes to the slot after this one
      have hnext : rb₁.writePos.toNat % rb₁.buffer.size
          = (rb.writePos.toNat + 1) % rb₁.buffer.size := by
        rw [h₁.writePos, h₁.size, h.writePos, hread₁, Fifo.push_items, List.length_append,
          List.length_singleton, Nat.mod_mod, Nat.mod_add_mod, Nat.add_assoc]
      rw [hbuffer, place_congr rest rb₁.buffer hnext, hbuffer₁, place, h.size,
        Nat.mod_eq_of_lt hwlt]

/-! ### The two calls -/

theorem Represents.read_state (h : Represents rb q) (length : UInt64) :
    ∃ rb' count, rb.read length = .ok (rb', count, q.items.take length.toNat) ∧
      count.toNat = min length.toNat q.items.length ∧ Represents rb' (q.read length.toNat) ∧
      rb'.buffer = rb.buffer ∧ rb'.writePos = rb.writePos := by
  obtain ⟨rb', count, hread, hcount, h'⟩ := h.read length
  obtain ⟨hbuffer, hwrite⟩ := readLoop_frame length.toNat hread
  exact ⟨rb', count, hread, hcount, h', hbuffer, hwrite⟩

theorem Represents.write_state (h : Represents rb q) {src : List UInt8}
    (hfits : src.length ≤ q.free) :
    ∃ rb' count, rb.write src = .ok (rb', count) ∧ count.toNat = src.length ∧
      Represents rb' (q.write src) ∧ rb'.readPos = rb.readPos ∧
      rb'.buffer = place rb.buffer rb.writePos.toNat src := by
  obtain ⟨rb', count, hwrite, hcount, h'⟩ := h.write src
  obtain ⟨hread, hbuffer⟩ := writeLoop_place src h hfits hwrite
  exact ⟨rb', count, hwrite, by omega, h', hread, hbuffer⟩

end Core.RingBuffer
