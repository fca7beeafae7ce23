/-
`AdvanceRead` against `Read`, and `AdvanceWrite` against `Write`.

The two loops move a position one slot at a time and touch the flag only when they move.  The two
`Advance`s move it once and touch the flag always: `AdvanceRead` clears it, `AdvanceWrite` sets it
if the positions coincide.  The difference shows when nothing is moved.  `AdvanceRead(0)` makes a
full buffer empty, and `AdvanceWrite(0)` makes an empty one full.
-/
import Cube.Core.Buffer.Transfer

namespace Core.RingBuffer

open Library

variable {rb : RingBuffer} {C : Nat} {q : Fifo UInt8 C}

/-! ### `AdvanceRead` -/

/-- What `AdvanceRead` sets, as long as the sum does not wrap. -/
theorem Represents.advanceRead_state (h : Represents rb q) (hC : 0 < C)
    (hfits : C ≤ 0x7FFFFFFFFFFFFFFF) {length : UInt64} (hlength : length.toNat ≤ C) :
    ∃ pos', rb.advanceRead length = .ok { rb with readPos := pos', isFull := false } ∧
      pos'.toNat = (rb.readPos.toNat + length.toNat) % C := by
  have hread := h.readPos hC
  obtain ⟨pos', hwrap, hpos'⟩ := wrap_add (h.capacity_ne_zero hC)
    (show rb.readPos.toNat + length.toNat < 2 ^ 64 by omega)
  rw [h.capacity] at hpos'
  refine ⟨pos', ?_, hpos'⟩
  unfold RingBuffer.advanceRead
  rw [hwrap]
  rfl

/-- `AdvanceRead` removes the oldest bytes, if it removes any or the buffer was not full. -/
theorem Represents.advanceRead (h : Represents rb q) (hC : 0 < C)
    (hfits : C ≤ 0x7FFFFFFFFFFFFFFF) {length : UInt64} (hlength : length.toNat ≤ q.items.length)
    (hmoves : length.toNat = 0 → q.items.length < C) :
    ∃ rb', rb.advanceRead length = .ok rb' ∧ Represents rb' (q.read length.toNat) ∧
      rb'.buffer = rb.buffer ∧ rb'.writePos = rb.writePos := by
  have hlen := q.bounded
  obtain ⟨pos', hadvance, hpos'⟩ :=
    h.advanceRead_state hC hfits (show length.toNat ≤ C by omega)
  obtain ⟨rb₂, _, _, _, h₂, hbuffer₂, hwrite₂⟩ := h.read_state length
  -- `Read` has moved its position to the same slot
  have hread₂ : rb₂.readPos.toNat = pos'.toNat := by
    have hmod : rb₂.readPos.toNat + (q.items.length - length.toNat)
        ≡ pos'.toNat + (q.items.length - length.toNat) [MOD C] := by
      have heq := h₂.writePos.symm.trans ((congrArg UInt64.toNat hwrite₂).trans h.writePos)
      rw [show (q.read length.toNat).items.length = q.items.length - length.toNat from
        List.length_drop ..] at heq
      show _ % C = _ % C
      rw [heq, hpos', Nat.mod_add_mod]
      congr 1
      omega
    refine Nat.ModEq.eq_of_lt_of_lt (Nat.ModEq.add_right_cancel' _ hmod) (h₂.readPos hC) ?_
    rw [hpos']
    exact Nat.mod_lt _ hC
  refine ⟨_, hadvance, ?_, rfl, rfl⟩
  refine ⟨h.capacity, h.size, fun _ => hread₂ ▸ h₂.readPos hC, fun hzero => by omega, ?_, ?_, ?_⟩
  · show rb.writePos.toNat = _
    rw [← hwrite₂, h₂.writePos, hread₂]
  · have hnot : (q.read length.toNat).items.length ≠ C := by
      show (q.items.drop length.toNat).length ≠ C
      rw [List.length_drop]
      omega
    simp [hnot]
  · show Window rb.buffer pos'.toNat _
    rw [← hread₂, ← hbuffer₂]
    exact h₂.window

/-- `AdvanceRead(length)` leaves the state that `Read(dest, length)` leaves.  That much less is
unread, and the calls that follow report what they would if these bytes had been read. -/
def AdvanceReadAgrees (rb : RingBuffer) (length : UInt64) : Prop :=
  ∃ rb' count dest, rb.advanceRead length = .ok rb' ∧ rb.read length = .ok (rb', count, dest) ∧
    rb'.readableBytes.toNat + length.toNat = rb.readableBytes.toNat ∧
    ∀ (C : Nat) (q : Fifo UInt8 C), Represents rb q → ∀ calls, ∃ rb'' outs,
      rb'.run calls = .ok (rb'', outs) ∧
      List.Forall₂ Outcome.Reports outs ((q.read length.toNat).run (calls.map Call.toFifo)).2

/-- The loop does not run and the flag stays; `AdvanceRead` clears it. -/
theorem Represents.not_advanceReadAgrees (h : Represents rb q) (hC : 0 < C)
    (hfits : C ≤ 0x7FFFFFFFFFFFFFFF) (hfull : rb.isFull = true) : ¬AdvanceReadAgrees rb 0 := by
  intro hagree
  obtain ⟨rb', count, dest, hadvance, hread, _⟩ := hagree
  have hsame : rb' = rb := (congrArg Prod.fst (Except.ok.inj hread)).symm
  obtain ⟨pos', hstate, _⟩ := h.advanceRead_state hC hfits
    (show (0 : UInt64).toNat ≤ C from Nat.zero_le _)
  have hcleared : rb'.isFull = false := by
    rw [hstate] at hadvance
    rw [← Except.ok.inj hadvance]
  rw [hsame, hfull] at hcleared
  exact Bool.noConfusion hcleared

theorem Represents.advanceReadAgrees (h : Represents rb q) (hC : 0 < C)
    (hfits : C ≤ 0x7FFFFFFFFFFFFFFF) {length : UInt64} (hlength : length.toNat ≤ q.items.length)
    (hmoves : length.toNat = 0 → q.items.length < C) : AdvanceReadAgrees rb length := by
  obtain ⟨rb', hadvance, h', hbuffer, hwrite⟩ := h.advanceRead hC hfits hlength hmoves
  obtain ⟨rb₂, count, hread, _, h₂, hbuffer₂, hwrite₂⟩ := h.read_state length
  obtain rfl : rb' = rb₂ := h'.ext h₂ rfl (hbuffer.trans hbuffer₂.symm)
    (h'.readPos_eq h₂ rfl (hwrite.trans hwrite₂.symm))
  refine ⟨rb', count, _, hadvance, hread, ?_, ?_⟩
  · rw [h'.readableBytes, h.readableBytes]
    show (q.items.drop length.toNat).length + length.toNat = q.items.length
    rw [List.length_drop]
    omega
  · intro C₁ q₁ hq₁ calls
    obtain ⟨rb₃, _, hread₃, _, h₃⟩ := hq₁.read length
    obtain rfl : rb' = rb₃ := congrArg Prod.fst (Except.ok.inj (hread.symm.trans hread₃))
    obtain ⟨rb'', outs, hrun, _, houts⟩ := run_represents calls h₃
    exact ⟨rb'', outs, hrun, houts⟩

/-- **When `AdvanceRead` is `Read` without the copy**: unless it advances by nothing on a full
buffer. -/
theorem advanceReadAgrees_iff (capacity : UInt64) (hC : 1 ≤ capacity) (rb : RingBuffer)
    (h : Reached capacity rb) (length : UInt64) (hlength : length ≤ rb.readableBytes) :
    AdvanceReadAgrees rb length ↔ ¬(length = 0 ∧ rb.isFull = true) := by
  obtain ⟨q, hq⟩ := h.represents
  have hpos : 0 < capacity.toNat := UInt64.le_iff_toNat_le.mp hC
  rw [hq.le_readableBytes] at hlength
  refine ⟨?_, ?_⟩
  · intro hagree hstays
    obtain ⟨rfl, hfull⟩ := hstays
    exact hq.not_advanceReadAgrees hpos h.fits hfull hagree
  · intro hmoves
    apply hq.advanceReadAgrees hpos h.fits hlength
    intro hzero
    have hlen := q.bounded
    rcases Nat.lt_or_ge q.items.length capacity.toNat with hlt | hge
    · exact hlt
    · have hfull : rb.isFull = true := hq.isFull.mpr ⟨hpos, by omega⟩
      exact absurd ⟨UInt64.toNat_inj.mp hzero, hfull⟩ hmoves

/-- Two bytes fill the buffer.  `Read(dest, 0)` leaves them there, after `AdvanceRead(0)` they are
gone. -/
theorem advanceRead_zero_empties :
    Reached 2 ⟨#[7, 8], 2, 0, 0, true⟩ ∧
      (⟨#[7, 8], 2, 0, 0, true⟩ : RingBuffer).read 0 = .ok (⟨#[7, 8], 2, 0, 0, true⟩, 0, []) ∧
      (⟨#[7, 8], 2, 0, 0, true⟩ : RingBuffer).advanceRead 0
        = .ok ⟨#[7, 8], 2, 0, 0, false⟩ ∧
      (⟨#[7, 8], 2, 0, 0, false⟩ : RingBuffer).readableBytes = 0 ∧
      ¬AdvanceReadAgrees ⟨#[7, 8], 2, 0, 0, true⟩ 0 := by
  refine ⟨⟨⟨#[0, 0], 2, 0, 0, false⟩, [.write [7, 8]], [.written 2], rfl, rfl⟩, rfl, rfl,
    by decide, ?_⟩
  intro hagree
  obtain ⟨rb', count, dest, hadvance, hread, _⟩ := hagree
  have hkept : rb' = ⟨#[7, 8], 2, 0, 0, true⟩ := (congrArg Prod.fst (Except.ok.inj hread)).symm
  have hcleared : rb' = ⟨#[7, 8], 2, 0, 0, false⟩ := (Except.ok.inj hadvance).symm
  rw [hkept] at hcleared
  exact absurd hcleared (by decide)

/-- One of two bytes of a full buffer. -/
theorem advanceReadAgrees_one : AdvanceReadAgrees ⟨#[7, 8], 2, 0, 0, true⟩ 1 :=
  (advanceReadAgrees_iff 2 (by decide) ⟨#[7, 8], 2, 0, 0, true⟩
    ⟨⟨#[0, 0], 2, 0, 0, false⟩, [.write [7, 8]], [.written 2], rfl, rfl⟩ 1 (by decide)).mpr
    (by decide)

/-! ### `AdvanceWrite` -/

/-- What `AdvanceWrite` sets, as long as the sum does not wrap. -/
theorem Represents.advanceWrite_state (h : Represents rb q) (hC : 0 < C)
    (hfits : C ≤ 0x7FFFFFFFFFFFFFFF) {length : UInt64} (hlength : length.toNat ≤ C) :
    ∃ pos', rb.advanceWrite length = .ok { rb with
        writePos := pos'
        isFull := if pos' = rb.readPos then true else rb.isFull } ∧
      pos'.toNat = (rb.readPos.toNat + (q.items.length + length.toNat)) % C := by
  have hwlt := h.writePos_lt hC
  obtain ⟨pos', hwrap, hpos'⟩ := wrap_add (h.capacity_ne_zero hC)
    (show rb.writePos.toNat + length.toNat < 2 ^ 64 by omega)
  rw [h.capacity, h.writePos, Nat.mod_add_mod, Nat.add_assoc] at hpos'
  refine ⟨pos', ?_, hpos'⟩
  unfold RingBuffer.advanceWrite
  rw [hwrap]
  rfl

/-- The bytes in the next free slots, appended to the contents. -/
def committed (rb : RingBuffer) (q : Fifo UInt8 C) (length : Nat) : Fifo UInt8 C :=
  q.write (slots rb.buffer rb.writePos.toNat length)

theorem committed_items {length : Nat} (hlength : length ≤ q.free) :
    (committed rb q length).items = q.items ++ slots rb.buffer rb.writePos.toNat length :=
  Fifo.write_items (by rwa [slots_length])

theorem committed_length {length : Nat} (hlength : length ≤ q.free) :
    (committed rb q length).items.length = q.items.length + length := by
  rw [committed_items hlength, List.length_append, slots_length]

/-- `AdvanceWrite` appends what lies in the next slots, if it appends any or the buffer was not
empty. -/
theorem Represents.advanceWrite (h : Represents rb q) (hC : 0 < C)
    (hfits : C ≤ 0x7FFFFFFFFFFFFFFF) {length : UInt64} (hlength : length.toNat ≤ q.free)
    (hmoves : length.toNat = 0 → 0 < q.items.length) :
    ∃ rb', rb.advanceWrite length = .ok rb' ∧ Represents rb' (committed rb q length.toNat) ∧
      rb'.buffer = rb.buffer ∧ rb'.readPos = rb.readPos := by
  have hlen := q.bounded
  have hfree : q.free = C - q.items.length := rfl
  have hread := h.readPos hC
  have hcount : (committed rb q length.toNat).items.length = q.items.length + length.toNat :=
    committed_length hlength
  obtain ⟨pos', hadvance, hpos'⟩ :=
    h.advanceWrite_state hC hfits (show length.toNat ≤ C by omega)
  -- the positions meet exactly when the buffer is full afterwards
  have hmeet : pos' = rb.readPos ↔ q.items.length + length.toNat = C := by
    rw [← UInt64.toNat_inj, hpos']
    rcases wrap_cases (n := q.items.length + length.toNat) hread (by omega) with
      ⟨_, hw⟩ | ⟨_, hw⟩ <;> omega
  refine ⟨_, hadvance, ?_, rfl, rfl⟩
  refine ⟨h.capacity, h.size, h.readPos, h.start, ?_, ?_, ?_⟩
  · show pos'.toNat = _
    rw [hpos', hcount]
  · rw [hcount]
    by_cases hm : pos' = rb.readPos
    · simp [hm, hC, hmeet.mp hm]
    · have hnot : q.items.length + length.toNat ≠ C := fun heq => hm (hmeet.mpr heq)
      have hold : rb.isFull ≠ true := fun hset => absurd (h.isFull.mp hset).2 (by omega)
      simp [hm, hnot, hold]
  · rw [committed_items hlength]
    refine h.window.append ?_ (by rw [slots_length, h.size]; omega)
    rw [slots_congr h.next_slot]
    exact Window.slots (by rw [h.size]; omega)

/-- `src` stored through `WriterPtr()`, wrapping at the end of the storage. -/
def placed (rb : RingBuffer) (src : List UInt8) : RingBuffer :=
  { rb with buffer := place rb.buffer rb.writePos.toNat src }

/-- Storing into free slots changes nothing that is held. -/
theorem Represents.placed (h : Represents rb q) {src : List UInt8} (hfits : src.length ≤ q.free) :
    Represents (rb.placed src) q := by
  have hlen := q.bounded
  have hfree : q.free = C - q.items.length := rfl
  refine ⟨h.capacity, ?_, h.readPos, h.start, h.writePos, h.isFull, ?_⟩
  · show (place rb.buffer rb.writePos.toNat src).size = C
    rw [place_size, h.size]
  · show Window (place rb.buffer rb.writePos.toNat src) rb.readPos.toNat q.items
    rw [place_congr src rb.buffer h.next_slot]
    exact (h.window.place src (by rw [h.size]; omega)).init

/-- `AdvanceWrite(length)` appends the bytes in the next `length` slots, and that much more is
unread.  If the bytes of `src` were stored there before, it leaves the state `Write(src, length)`
leaves. -/
def CommitsExactly (rb : RingBuffer) (length : UInt64) : Prop :=
  (∃ rb', rb.advanceWrite length = .ok rb' ∧
    rb'.readableBytes.toNat = rb.readableBytes.toNat + length.toNat ∧
    ∀ (C : Nat) (q : Fifo UInt8 C), Represents rb q → ∃ q' : Fifo UInt8 C, Represents rb' q' ∧
      q'.items = q.items ++ slots rb.buffer rb.writePos.toNat length.toNat) ∧
  ∀ src : List UInt8, src.length = length.toNat →
    ∃ rb' count, (rb.placed src).advanceWrite length = .ok rb' ∧
      rb.write src = .ok (rb', count)

/-- The positions of an empty buffer coincide, so the flag is set. -/
theorem Represents.not_commitsExactly (h : Represents rb q) (hC : 0 < C)
    (hfits : C ≤ 0x7FFFFFFFFFFFFFFF) (hempty : q.items.length = 0) : ¬CommitsExactly rb 0 := by
  intro hcommits
  obtain ⟨⟨rb', hadvance, hreadable, _⟩, _⟩ := hcommits
  obtain ⟨pos', hstate, hpos'⟩ := h.advanceWrite_state hC hfits
    (show (0 : UInt64).toNat ≤ C from Nat.zero_le _)
  have hmeet : pos' = rb.readPos := by
    rw [← UInt64.toNat_inj, hpos', hempty]
    exact Nat.mod_eq_of_lt (h.readPos hC)
  have hfull : rb'.readableBytes = rb.capacity := by
    rw [hstate] at hadvance
    rw [← Except.ok.inj hadvance]
    simp [RingBuffer.readableBytes, hmeet]
  rw [hfull, h.capacity, h.readableBytes, hempty] at hreadable
  exact absurd hreadable (Nat.ne_of_gt hC)

/-- Placed and then committed, or written: the state is the same. -/
theorem Represents.placed_advanceWrite (h : Represents rb q) (hC : 0 < C)
    (hfits : C ≤ 0x7FFFFFFFFFFFFFFF) {length : UInt64} (hlength : length.toNat ≤ q.free)
    (hmoves : length.toNat = 0 → 0 < q.items.length) {src : List UInt8}
    (hsrc : src.length = length.toNat) :
    ∃ rb' count, (rb.placed src).advanceWrite length = .ok rb' ∧
      rb.write src = .ok (rb', count) := by
  have hroom : src.length ≤ q.free := by omega
  obtain ⟨rb₁, hadvance, h₁, hbuffer₁, hread₁⟩ :=
    (h.placed hroom).advanceWrite hC hfits hlength hmoves
  obtain ⟨rb₂, count, hwrite, _, h₂, hread₂, hbuffer₂⟩ := h.write_state hroom
  have hlen : (committed (rb.placed src) q length.toNat).items.length
      = (q.write src).items.length := by
    rw [committed_length hlength, Fifo.write_items hroom, List.length_append, hsrc]
  obtain rfl : rb₁ = rb₂ := h₁.ext h₂ hlen (hbuffer₁.trans hbuffer₂.symm)
    (hread₁.trans hread₂.symm)
  exact ⟨rb₁, count, hadvance, hwrite⟩

theorem Represents.commitsExactly (h : Represents rb q) (hC : 0 < C)
    (hfits : C ≤ 0x7FFFFFFFFFFFFFFF) {length : UInt64} (hlength : length.toNat ≤ q.free)
    (hmoves : length.toNat = 0 → 0 < q.items.length) : CommitsExactly rb length := by
  obtain ⟨rb', hadvance, h', _⟩ := h.advanceWrite hC hfits hlength hmoves
  refine ⟨⟨rb', hadvance, ?_, ?_⟩, ?_⟩
  · rw [h'.readableBytes, h.readableBytes, committed_length hlength]
  · intro C₁ q₁ hq₁
    obtain rfl : C = C₁ := h.capacity.symm.trans hq₁.capacity
    exact ⟨_, h', by rw [committed_items hlength, h.items_eq hq₁]⟩
  · intro src hsrc
    exact h.placed_advanceWrite hC hfits hlength hmoves hsrc

/-- **When `AdvanceWrite` commits what was placed**: unless it advances by nothing on an empty
buffer. -/
theorem commitsExactly_iff (capacity : UInt64) (hC : 1 ≤ capacity) (rb : RingBuffer)
    (h : Reached capacity rb) (length : UInt64) (hlength : length ≤ rb.writableBytes) :
    CommitsExactly rb length ↔ ¬(length = 0 ∧ rb.readableBytes = 0) := by
  obtain ⟨q, hq⟩ := h.represents
  have hpos : 0 < capacity.toNat := UInt64.le_iff_toNat_le.mp hC
  rw [hq.le_writableBytes] at hlength
  rw [hq.readableBytes_eq_zero]
  refine ⟨?_, ?_⟩
  · intro hcommits hstays
    obtain ⟨rfl, hempty⟩ := hstays
    exact hq.not_commitsExactly hpos h.fits hempty hcommits
  · intro hmoves
    apply hq.commitsExactly hpos h.fits hlength
    intro hzero
    apply Nat.pos_of_ne_zero
    intro hempty
    exact hmoves ⟨UInt64.toNat_inj.mp hzero, hempty⟩

/-- A receive that completes with no byte makes the empty buffer full of zeros. -/
theorem advanceWrite_zero_fills :
    Reached 2 ⟨#[0, 0], 2, 0, 0, false⟩ ∧
      (⟨#[0, 0], 2, 0, 0, false⟩ : RingBuffer).advanceWrite 0
        = .ok ⟨#[0, 0], 2, 0, 0, true⟩ ∧
      (⟨#[0, 0], 2, 0, 0, true⟩ : RingBuffer).readableBytes = 2 ∧
      (⟨#[0, 0], 2, 0, 0, false⟩ : RingBuffer).write []
        = .ok (⟨#[0, 0], 2, 0, 0, false⟩, 0) ∧
      ¬CommitsExactly ⟨#[0, 0], 2, 0, 0, false⟩ 0 := by
  refine ⟨⟨⟨#[0, 0], 2, 0, 0, false⟩, [], [], rfl, rfl⟩, rfl, by decide, rfl, ?_⟩
  intro hcommits
  obtain ⟨⟨rb', hadvance, hreadable, _⟩, _⟩ := hcommits
  have hfull : rb' = ⟨#[0, 0], 2, 0, 0, true⟩ := (Except.ok.inj hadvance).symm
  rw [hfull] at hreadable
  exact absurd hreadable (by decide)

/-- The receive that fills it. -/
theorem commitsExactly_two : CommitsExactly ⟨#[0, 0], 2, 0, 0, false⟩ 2 :=
  (commitsExactly_iff 2 (by decide) ⟨#[0, 0], 2, 0, 0, false⟩
    ⟨⟨#[0, 0], 2, 0, 0, false⟩, [], [], rfl, rfl⟩ 2 (by decide)).mpr (by decide)

end Core.RingBuffer
