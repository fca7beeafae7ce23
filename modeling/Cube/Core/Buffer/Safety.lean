/-
No call of `RingBuffer` leaves the storage.

`AdvanceRead` and `AdvanceWrite` check nothing.  A length beyond what is readable or writable, or
one that wraps around `size_t`, leaves positions and a flag that describe no contents at all: the
flag can be set while the positions differ.  What survives is `Sound`: both positions are
remainders by the capacity.  That alone bounds every index and every subtraction, whatever the flag
says, so a buffer driven into such a state counts wrong bytes but touches no foreign ones.
-/
import Cube.Core.Buffer.RingBuffer

namespace Core.RingBuffer

/-- The storage has `_capacity` bytes, as many as a vector can have, and both positions lie in it.
Nothing is said of `_isFull`. -/
structure Sound (rb : RingBuffer) : Prop where
  size : rb.buffer.size = rb.capacity.toNat
  fits : rb.capacity ≤ maxSize
  readPos : rb.readPos < rb.capacity
  writePos : rb.writePos < rb.capacity

/-- A state in which no index and no sum of the source goes astray. -/
structure Safe (rb : RingBuffer) (capacity : UInt64) : Prop where
  storage : rb.buffer.size = capacity.toNat
  readPos : rb.readPos < capacity
  writePos : rb.writePos < capacity
  readPtr : rb.readPtr = .ok rb.readPos
  writerPtr : rb.writerPtr = .ok rb.writePos
  readable : rb.readableBytes ≤ capacity
  wrapped : (capacity - rb.readPos + rb.writePos).toNat
    = capacity.toNat - rb.readPos.toNat + rb.writePos.toNat
  writable : rb.writableBytes.toNat = capacity.toNat - rb.readableBytes.toNat
  total : rb.readableBytes.toNat + rb.writableBytes.toNat = capacity.toNat

/-- The states in which a call evaluates `ReadableBytes()` or `WritableBytes()`: the state it
starts in, and for the two loops the state after each turn. -/
inductive Visits : RingBuffer → Operation → RingBuffer → Prop
  | start (rb : RingBuffer) (op : Operation) : Visits rb op rb
  | written {rb rb₁ rb' : RingBuffer} {byte : UInt8} {rest : List UInt8}
      (hloop : rb.writableBytes > 0) (hbyte : rb.writeByte byte = .ok rb₁)
      (hrest : Visits rb₁ (.write rest) rb') : Visits rb (.write (byte :: rest)) rb'
  | read {rb rb₁ rb' : RingBuffer} {byte : UInt8} {length : UInt64} (hlength : length > 0)
      (hloop : rb.readableBytes > 0) (hbyte : rb.readByte = .ok (rb₁, byte))
      (hrest : Visits rb₁ (.read (length - 1)) rb') : Visits rb (.read length) rb'

variable {rb : RingBuffer}

/-! ### Bounds and sums in a sound state -/

namespace Sound

theorem capacity_ne_zero (h : Sound rb) : rb.capacity ≠ 0 := by
  intro hzero
  have hlt := h.readPos
  rw [hzero] at hlt
  exact absurd hlt (Nat.not_lt_zero _)

theorem toNat_le_maxSize (h : Sound rb) : rb.capacity.toNat ≤ 0x7FFFFFFFFFFFFFFF :=
  UInt64.le_iff_toNat_le.mp h.fits

theorem readPos_toNat (h : Sound rb) : rb.readPos.toNat < rb.capacity.toNat :=
  UInt64.lt_iff_toNat_lt.mp h.readPos

theorem writePos_toNat (h : Sound rb) : rb.writePos.toNat < rb.capacity.toNat :=
  UInt64.lt_iff_toNat_lt.mp h.writePos

/-- The sum in the last line of `ReadableBytes` does not wrap. -/
theorem wrapped (h : Sound rb) : (rb.capacity - rb.readPos + rb.writePos).toNat
    = rb.capacity.toNat - rb.readPos.toNat + rb.writePos.toNat := by
  have hread := h.readPos_toNat
  have hwrite := h.writePos_toNat
  have hmax := h.toNat_le_maxSize
  have hle : rb.readPos ≤ rb.capacity := UInt64.le_iff_toNat_le.mpr (by omega)
  rw [UInt64.toNat_add, UInt64.toNat_sub_of_le _ _ hle, Nat.mod_eq_of_lt]
  omega

theorem readable (h : Sound rb) : rb.readableBytes ≤ rb.capacity := by
  have hwrite := h.writePos_toNat
  rw [UInt64.le_iff_toNat_le]
  unfold readableBytes
  split
  · exact Nat.le_refl _
  · split
    · rw [UInt64.toNat_sub_of_le _ _ ‹_›]
      omega
    · have hlt : rb.writePos.toNat < rb.readPos.toNat :=
        UInt64.lt_iff_toNat_lt.mp (UInt64.not_le.mp ‹_›)
      rw [h.wrapped]
      omega

theorem writable (h : Sound rb) :
    rb.writableBytes.toNat = rb.capacity.toNat - rb.readableBytes.toNat :=
  UInt64.toNat_sub_of_le _ _ h.readable

theorem safe (h : Sound rb) : Safe rb rb.capacity where
  storage := h.size
  readPos := h.readPos
  writePos := h.writePos
  readPtr := if_pos (h.size ▸ h.readPos_toNat)
  writerPtr := if_pos (h.size ▸ h.writePos_toNat)
  readable := h.readable
  wrapped := h.wrapped
  writable := h.writable
  total := by
    have hle : rb.readableBytes.toNat ≤ rb.capacity.toNat := UInt64.le_iff_toNat_le.mp h.readable
    rw [h.writable]
    omega

/-! ### One access, one move -/

/-- Whatever the length, and even if the sum wraps, the new position is a remainder. -/
theorem wrap (h : Sound rb) (pos length : UInt64) :
    ∃ pos', rb.wrap pos length = .ok pos' ∧ pos' < rb.capacity := by
  refine ⟨(pos + length) % rb.capacity, if_neg h.capacity_ne_zero, ?_⟩
  rw [UInt64.lt_iff_toNat_lt, UInt64.toNat_mod]
  apply Nat.mod_lt
  exact Nat.zero_lt_of_lt h.readPos_toNat

theorem load (h : Sound rb) {pos : UInt64} (hpos : pos < rb.capacity) :
    ∃ byte, rb.load pos = .ok byte := by
  have hlt : pos.toNat < rb.buffer.size := by
    rw [h.size]
    exact UInt64.lt_iff_toNat_lt.mp hpos
  exact ⟨rb.buffer[pos.toNat], by simp [RingBuffer.load, hlt]⟩

theorem writeByte (h : Sound rb) (byte : UInt8) :
    ∃ rb', rb.writeByte byte = .ok rb' ∧ Sound rb' ∧ rb'.capacity = rb.capacity := by
  obtain ⟨pos', hwrap, hpos'⟩ := h.wrap rb.writePos 1
  have hstore : rb.store rb.writePos byte
      = .ok (rb.buffer.setIfInBounds rb.writePos.toNat byte) :=
    if_pos (h.size ▸ h.writePos_toNat)
  refine ⟨{ rb with
    buffer := rb.buffer.setIfInBounds rb.writePos.toNat byte
    writePos := pos'
    isFull := if pos' = rb.readPos then true else rb.isFull }, ?_, ?_, rfl⟩
  · unfold RingBuffer.writeByte
    rw [hstore, hwrap]
    rfl
  · exact ⟨by simpa using h.size, h.fits, h.readPos, hpos'⟩

theorem readByte (h : Sound rb) :
    ∃ rb' byte, rb.readByte = .ok (rb', byte) ∧ Sound rb' ∧ rb'.capacity = rb.capacity := by
  obtain ⟨pos', hwrap, hpos'⟩ := h.wrap rb.readPos 1
  obtain ⟨byte, hload⟩ := h.load h.readPos
  refine ⟨{ rb with readPos := pos', isFull := false }, byte, ?_, ?_, rfl⟩
  · unfold RingBuffer.readByte
    rw [hload, hwrap]
    rfl
  · exact ⟨h.size, h.fits, hpos', h.writePos⟩

theorem advanceRead (h : Sound rb) (length : UInt64) :
    ∃ rb', rb.advanceRead length = .ok rb' ∧ Sound rb' ∧ rb'.capacity = rb.capacity := by
  obtain ⟨pos', hwrap, hpos'⟩ := h.wrap rb.readPos length
  refine ⟨{ rb with readPos := pos', isFull := false }, ?_, ?_, rfl⟩
  · unfold RingBuffer.advanceRead
    rw [hwrap]
    rfl
  · exact ⟨h.size, h.fits, hpos', h.writePos⟩

theorem advanceWrite (h : Sound rb) (length : UInt64) :
    ∃ rb', rb.advanceWrite length = .ok rb' ∧ Sound rb' ∧ rb'.capacity = rb.capacity := by
  obtain ⟨pos', hwrap, hpos'⟩ := h.wrap rb.writePos length
  refine ⟨{ rb with
    writePos := pos'
    isFull := if pos' = rb.readPos then true else rb.isFull }, ?_, ?_, rfl⟩
  · unfold RingBuffer.advanceWrite
    rw [hwrap]
    rfl
  · exact ⟨h.size, h.fits, h.readPos, hpos'⟩

/-! ### The three loops -/

theorem writeLoop (src : List UInt8) :
    ∀ {rb : RingBuffer} (written : UInt64), Sound rb →
      ∃ rb' count, rb.writeLoop written src = .ok (rb', count) ∧ Sound rb' ∧
        rb'.capacity = rb.capacity := by
  induction src with
  | nil =>
      intro rb written h
      exact ⟨rb, written, rfl, h, rfl⟩
  | cons byte rest ih =>
      intro rb written h
      unfold RingBuffer.writeLoop
      by_cases hroom : rb.writableBytes > 0
      · obtain ⟨rb₁, hbyte, h₁, hcap₁⟩ := h.writeByte byte
        obtain ⟨rb', count, hloop, h', hcap'⟩ := ih (written + 1) h₁
        refine ⟨rb', count, ?_, h', hcap'.trans hcap₁⟩
        rw [if_pos hroom, hbyte]
        exact hloop
      · exact ⟨rb, written, if_neg hroom, h, rfl⟩

theorem readLoop (remaining : Nat) :
    ∀ {rb : RingBuffer} (read : UInt64) (dest : List UInt8), Sound rb →
      ∃ rb' count dest', rb.readLoop read dest remaining = .ok (rb', count, dest') ∧ Sound rb' ∧
        rb'.capacity = rb.capacity := by
  induction remaining with
  | zero =>
      intro rb read dest h
      exact ⟨rb, read, dest, rfl, h, rfl⟩
  | succ n ih =>
      intro rb read dest h
      unfold RingBuffer.readLoop
      by_cases hsome : rb.readableBytes > 0
      · obtain ⟨rb₁, byte, hbyte, h₁, hcap₁⟩ := h.readByte
        obtain ⟨rb', count, dest', hloop, h', hcap'⟩ := ih (read + 1) (dest ++ [byte]) h₁
        refine ⟨rb', count, dest', ?_, h', hcap'.trans hcap₁⟩
        rw [if_pos hsome, hbyte]
        exact hloop
      · exact ⟨rb, read, dest, if_neg hsome, h, rfl⟩

/-- The cursor of `Peek` stays in the storage, however far the loop goes. -/
theorem peekLoop (h : Sound rb) (remaining : Nat) :
    ∀ {pos : UInt64} (peek : UInt64) (dest : List UInt8), pos < rb.capacity →
      ∃ out, rb.peekLoop pos peek dest remaining = .ok out := by
  induction remaining with
  | zero =>
      intro pos peek dest _
      exact ⟨(peek, dest), rfl⟩
  | succ n ih =>
      intro pos peek dest hpos
      unfold RingBuffer.peekLoop
      by_cases hsome : rb.readableBytes > 0
      · obtain ⟨byte, hload⟩ := h.load hpos
        obtain ⟨pos', hwrap, hpos'⟩ := h.wrap pos 1
        obtain ⟨out, hloop⟩ := ih (peek + 1) (dest ++ [byte]) hpos'
        simp only [if_pos hsome, hload, hwrap, bind, Except.bind]
        split
        · exact ⟨_, rfl⟩
        · exact ⟨out, hloop⟩
      · exact ⟨(peek, dest), if_neg hsome⟩

/-! ### Calls -/

/-- Every operation returns, and keeps the positions in the storage. -/
theorem perform (h : Sound rb) (op : Operation) :
    ∃ rb', rb.perform op = .ok rb' ∧ Sound rb' ∧ rb'.capacity = rb.capacity := by
  cases op with
  | write src =>
      obtain ⟨rb', count, hloop, h', hcap⟩ := writeLoop src 0 h
      refine ⟨rb', ?_, h', hcap⟩
      simp only [RingBuffer.perform, write, hloop, bind, Except.bind]
      rfl
  | read length =>
      obtain ⟨rb', count, dest, hloop, h', hcap⟩ := readLoop length.toNat 0 [] h
      refine ⟨rb', ?_, h', hcap⟩
      simp only [RingBuffer.perform, read, hloop, bind, Except.bind]
      rfl
  | peek length =>
      obtain ⟨out, hloop⟩ := h.peekLoop length.toNat 0 [] h.readPos
      refine ⟨rb, ?_, h, rfl⟩
      simp only [RingBuffer.perform, peek, hloop, bind, Except.bind]
      rfl
  | advanceRead length => exact h.advanceRead length
  | advanceWrite length => exact h.advanceWrite length

theorem performAll (ops : List Operation) :
    ∀ {rb : RingBuffer}, Sound rb →
      ∃ rb', rb.performAll ops = .ok rb' ∧ Sound rb' ∧ rb'.capacity = rb.capacity := by
  induction ops with
  | nil =>
      intro rb h
      exact ⟨rb, rfl, h, rfl⟩
  | cons op rest ih =>
      intro rb h
      obtain ⟨rb₁, hop, h₁, hcap₁⟩ := h.perform op
      obtain ⟨rb', hrest, h', hcap'⟩ := ih h₁
      refine ⟨rb', ?_, h', hcap'.trans hcap₁⟩
      simp only [RingBuffer.performAll, hop, bind, Except.bind, hrest]

/-- The states inside a call are as sound as those between calls. -/
theorem visits {op : Operation} {rb' : RingBuffer} (hv : Visits rb op rb') :
    Sound rb → Sound rb' ∧ rb'.capacity = rb.capacity := by
  induction hv with
  | start rb op =>
      intro h
      exact ⟨h, rfl⟩
  | @written rb rb₁ rb' byte rest _ hbyte _ ih =>
      intro h
      obtain ⟨rb₂, hbyte₂, h₂, hcap₂⟩ := h.writeByte byte
      obtain rfl : rb₁ = rb₂ := Except.ok.inj (hbyte.symm.trans hbyte₂)
      exact ⟨(ih h₂).1, (ih h₂).2.trans hcap₂⟩
  | @read rb rb₁ rb' byte length _ _ hbyte _ ih =>
      intro h
      obtain ⟨rb₂, byte₂, hbyte₂, h₂, hcap₂⟩ := h.readByte
      obtain ⟨rfl, rfl⟩ := Prod.mk.inj (Except.ok.inj (hbyte.symm.trans hbyte₂))
      exact ⟨(ih h₂).1, (ih h₂).2.trans hcap₂⟩

end Sound

theorem construct_sound {capacity : UInt64} (hC : 1 ≤ capacity)
    (h : construct capacity = .ok rb) : Sound rb ∧ rb.capacity = capacity := by
  have hpos : 0 < capacity := by
    rw [UInt64.le_iff_toNat_le] at hC
    rw [UInt64.lt_iff_toNat_lt]
    exact hC
  unfold construct at h
  split at h
  · cases h
    exact ⟨⟨by simp, ‹_›, hpos, hpos⟩, rfl⟩
  · cases h

/-- **No call leaves the storage.**  Any sequence of operations on a new buffer returns, so every
index it used was in the storage and no remainder was by zero.  The state it leaves is safe, and so
is every state in which the next call evaluates the number of bytes. -/
theorem performAll_safe (capacity : UInt64) (hC : 1 ≤ capacity) (rb : RingBuffer)
    (h : construct capacity = .ok rb) (ops : List Operation) :
    ∃ rb', rb.performAll ops = .ok rb' ∧ Safe rb' capacity ∧
      ∀ op rb'', Visits rb' op rb'' → Safe rb'' capacity := by
  obtain ⟨hsound, hcap⟩ := construct_sound hC h
  obtain ⟨rb', hops, h', hcap'⟩ := Sound.performAll ops hsound
  have hcapacity : rb'.capacity = capacity := hcap'.trans hcap
  refine ⟨rb', hops, hcapacity ▸ h'.safe, ?_⟩
  intro op rb'' hv
  obtain ⟨h'', hcap''⟩ := h'.visits hv
  have hsafe := h''.safe
  rwa [hcap'', hcapacity] at hsafe

/-- An `AdvanceWrite` that fills the buffer and one that goes on: the flag is set and the positions
differ. -/
theorem performAll_safe_two :
    ∃ rb', (⟨#[0, 0], 2, 0, 0, false⟩ : RingBuffer).performAll
        [.advanceWrite 2, .advanceWrite 0xFFFFFFFFFFFFFFFF, .peek 3] = .ok rb' ∧
      Safe rb' 2 ∧ rb'.isFull = true ∧ rb'.readPos ≠ rb'.writePos := by
  obtain ⟨rb', hops, hsafe, -⟩ := performAll_safe 2 (by decide) ⟨#[0, 0], 2, 0, 0, false⟩
    rfl [.advanceWrite 2, .advanceWrite 0xFFFFFFFFFFFFFFFF, .peek 3]
  have hend : rb' = ⟨#[0, 0], 2, 0, 1, true⟩ := (Except.ok.inj hops).symm
  exact ⟨rb', hops, hsafe, by rw [hend], by rw [hend]; decide⟩

end Core.RingBuffer
