/-
`Peek` against `Read`.

`Peek` walks with a cursor of its own and leaves the buffer alone.  Its loop has two ways to stop
early: the buffer is empty, which does not change while it runs, or the cursor comes back to
`_writePos` and `_isFull` is set.  On a buffer that is neither empty nor full neither happens, and
the loop goes on over slots that hold no unread byte.
-/
import Cube.Core.Buffer.Transfer

namespace Core.RingBuffer

open Library

variable {rb : RingBuffer} {C : Nat} {q : Fifo UInt8 C}

/-! ### One turn of the loop -/

theorem Represents.load (h : Represents rb q) {pos : UInt64} (hpos : pos.toNat < C) :
    rb.load pos = .ok (rb.buffer.getD (pos.toNat % rb.buffer.size) default) := by
  have hlt : pos.toNat < rb.buffer.size := by
    rw [h.size]
    exact hpos
  rw [Nat.mod_eq_of_lt hlt]
  simp [RingBuffer.load, hlt]

/-- The cursor moves to the next slot. -/
theorem Represents.wrap (h : Represents rb q) {pos : UInt64} (hpos : pos.toNat < C) :
    ∃ pos', rb.wrap pos 1 = .ok pos' ∧ pos'.toNat = (pos.toNat + 1) % C ∧ pos'.toNat < C := by
  obtain ⟨pos', hwrap, hpos'⟩ := wrap_one (h.capacity ▸ hpos)
  rw [h.capacity] at hpos'
  refine ⟨pos', hwrap, hpos', ?_⟩
  rw [hpos']
  exact Nat.mod_lt _ (Nat.zero_lt_of_lt hpos)

/-! ### The two ways through the loop -/

/-- While the flag is not set the loop runs for the whole length. -/
theorem Represents.peekLoop_open (h : Represents rb q) (hopen : rb.isFull = false)
    (hsome : rb.readableBytes > 0) (remaining : Nat) :
    ∀ (pos peek : UInt64) (dest : List UInt8), pos.toNat < C →
      rb.peekLoop pos peek dest remaining
        = .ok (peek + .ofNat remaining, dest ++ slots rb.buffer pos.toNat remaining) := by
  induction remaining with
  | zero =>
      intro pos peek dest _
      simp [peekLoop, slots_zero]
  | succ n ih =>
      intro pos peek dest hpos
      obtain ⟨pos', hwrap, hnext, hpos'⟩ := h.wrap hpos
      have hstop : ¬(pos' = rb.writePos ∧ rb.isFull = true) := by simp [hopen]
      unfold peekLoop
      rw [if_pos hsome, h.load hpos, hwrap]
      simp only [bind, Except.bind]
      rw [if_neg hstop, ih pos' (peek + 1) _ hpos', slots_succ, hnext, h.size, Nat.add_comm n 1,
        UInt64.ofNat_add, ← UInt64.add_assoc, List.append_assoc, List.singleton_append]
      rfl

/-- With the flag set the loop ends after one round: `i` turns are made, `C - i` are left. -/
theorem Represents.peekLoop_full (h : Represents rb q) (hfull : rb.isFull = true)
    (remaining : Nat) :
    ∀ (i : Nat) (pos peek : UInt64) (dest : List UInt8), i < C →
      pos.toNat = (rb.readPos.toNat + i) % C →
        rb.peekLoop pos peek dest remaining
          = .ok (peek + .ofNat (min remaining (C - i)),
              dest ++ slots rb.buffer pos.toNat (min remaining (C - i))) := by
  induction remaining with
  | zero =>
      intro i pos peek dest _ _
      simp [peekLoop, slots_zero]
  | succ n ih =>
      intro i pos peek dest hi hpos
      obtain ⟨hC, hlen⟩ := h.isFull.mp hfull
      have hread := h.readPos hC
      have hlt : pos.toNat < C := by
        rw [hpos]
        exact Nat.mod_lt _ hC
      have hsome : rb.readableBytes > 0 := by
        rw [gt_iff_lt, UInt64.lt_iff_toNat_lt, h.readableBytes, hlen]
        exact hC
      obtain ⟨pos', hwrap, hnext, _⟩ := h.wrap hlt
      have hpos' : pos'.toNat = (rb.readPos.toNat + (i + 1)) % C := by
        rw [hnext, hpos, Nat.mod_add_mod, Nat.add_assoc]
      -- the positions of a full buffer coincide, so the cursor meets `_writePos` after a round
      have hmeet : pos' = rb.writePos ↔ i + 1 = C := by
        rw [← UInt64.toNat_inj, hpos', h.writePos, hlen, Nat.add_mod_right,
          Nat.mod_eq_of_lt hread]
        rcases wrap_cases (n := i + 1) hread hi with ⟨_, hw⟩ | ⟨_, hw⟩ <;> omega
      unfold peekLoop
      rw [if_pos hsome, h.load hlt, hwrap]
      simp only [bind, Except.bind]
      by_cases hlast : i + 1 = C
      · have hturns : min (n + 1) (C - i) = 1 := by omega
        rw [if_pos ⟨hmeet.mpr hlast, hfull⟩, hturns, slots_succ, slots_zero]
        rfl
      · have hturns : min (n + 1) (C - i) = 1 + min n (C - (i + 1)) := by omega
        have hgo : ¬(pos' = rb.writePos ∧ rb.isFull = true) := by
          intro hstop
          exact hlast (hmeet.mp hstop.1)
        rw [if_neg hgo, ih (i + 1) pos' (peek + 1) _ (by omega) hpos', hturns,
          Nat.add_comm 1 (min _ _), slots_succ, hnext, h.size, Nat.add_comm (min _ _) 1,
          UInt64.ofNat_add, ← UInt64.add_assoc, List.append_assoc, List.singleton_append]
        rfl

/-! ### `Peek` in the three kinds of state -/

/-- The oldest bytes, read slot by slot. -/
theorem Represents.take_eq_slots (h : Represents rb q) (k : Nat) :
    q.items.take k = slots rb.buffer rb.readPos.toNat (min k q.items.length) := by
  rw [← slots_take, ← h.window.eq_slots]

theorem Represents.peek_empty (h : Represents rb q) (hempty : q.items.length = 0)
    (length : UInt64) : rb.peek length = .ok (0, []) := by
  have hstop : ¬rb.readableBytes > 0 := by
    rw [gt_iff_lt, UInt64.lt_iff_toNat_lt, h.readableBytes, hempty]
    exact Nat.lt_irrefl 0
  unfold peek
  cases length.toNat with
  | zero => rfl
  | succ n => rw [peekLoop, if_neg hstop]

theorem Represents.peek_full (h : Represents rb q) (hfull : rb.isFull = true)
    (length : UInt64) : rb.peek length
      = .ok (.ofNat (min length.toNat q.items.length), q.items.take length.toNat) := by
  obtain ⟨hC, hlen⟩ := h.isFull.mp hfull
  have hpos : rb.readPos.toNat = (rb.readPos.toNat + 0) % C := by
    rw [Nat.add_zero, Nat.mod_eq_of_lt (h.readPos hC)]
  rw [peek, h.peekLoop_full hfull length.toNat 0 rb.readPos 0 [] hC hpos, h.take_eq_slots, hlen,
    Nat.sub_zero, UInt64.zero_add, List.nil_append]

/-- Neither empty nor full: as many bytes as were asked for. -/
theorem Represents.peek_open (h : Represents rb q) (hopen : rb.isFull = false)
    (hsome : 0 < q.items.length) (length : UInt64) :
    rb.peek length = .ok (length, slots rb.buffer rb.readPos.toNat length.toNat) := by
  have hlen := q.bounded
  have hreadable : rb.readableBytes > 0 := by
    rw [gt_iff_lt, UInt64.lt_iff_toNat_lt, h.readableBytes]
    exact hsome
  rw [peek, h.peekLoop_open hopen hreadable length.toNat rb.readPos 0 []
    (h.readPos (by omega)), UInt64.zero_add, UInt64.ofNat_toNat, List.nil_append]

/-! ### Agreement -/

/-- `Peek(dest, length)` returns and stores what `Read(dest, length)` would, which is as much as
is there, up to the length. -/
def PeekAgrees (rb : RingBuffer) (length : UInt64) : Prop :=
  ∃ rb' count dest, rb.peek length = .ok (count, dest) ∧
    rb.read length = .ok (rb', count, dest) ∧
      count.toNat = min length.toNat rb.readableBytes.toNat

/-- `Peek` agrees if it gives the oldest bytes, up to the length. -/
theorem Represents.peekAgrees (h : Represents rb q) {length : UInt64}
    (hpeek : rb.peek length
      = .ok (.ofNat (min length.toNat q.items.length), q.items.take length.toNat)) :
    PeekAgrees rb length := by
  obtain ⟨rb', count, hread, hcount, _⟩ := h.read length
  have hle := q.bounded
  have hcount' : count = .ofNat (min length.toNat q.items.length) := by
    rw [← UInt64.toNat_inj, hcount, h.toNat_ofNat (by omega)]
  rw [← hcount'] at hpeek
  exact ⟨rb', count, _, hpeek, hread, by rw [h.readableBytes, hcount]⟩

/-- Neither empty nor full, and more is asked for than is there. -/
theorem Represents.not_peekAgrees (h : Represents rb q) (hopen : rb.isFull = false)
    (hsome : 0 < q.items.length) {length : UInt64} (hlong : q.items.length < length.toNat) :
    ¬PeekAgrees rb length := by
  intro hagree
  obtain ⟨rb', count, dest, hpeek, _, hmin⟩ := hagree
  rw [h.peek_open hopen hsome] at hpeek
  obtain rfl : length = count := congrArg Prod.fst (Except.ok.inj hpeek)
  rw [h.readableBytes] at hmin
  omega

/-- **When `Peek` agrees with `Read`**: if that much is there, if nothing is, or on a full buffer.
On any other buffer `Peek` returns the length it was given. -/
theorem peekAgrees_iff (capacity : UInt64) (rb : RingBuffer) (h : Reached capacity rb)
    (length : UInt64) : PeekAgrees rb length ↔
      length ≤ rb.readableBytes ∨ rb.readableBytes = 0 ∨ rb.isFull = true := by
  obtain ⟨q, hq⟩ := h.represents
  rw [hq.le_readableBytes, hq.readableBytes_eq_zero]
  by_cases hfull : rb.isFull = true
  · have hagree := hq.peekAgrees (hq.peek_full hfull length)
    exact ⟨fun _ => Or.inr (Or.inr hfull), fun _ => hagree⟩
  by_cases hempty : q.items.length = 0
  · refine ⟨fun _ => Or.inr (Or.inl hempty), fun _ => hq.peekAgrees ?_⟩
    rw [hq.peek_empty hempty, hempty, Nat.min_zero, List.length_eq_zero_iff.mp hempty,
      List.take_nil]
    rfl
  have hopen : rb.isFull = false := by simpa using hfull
  have hsome : 0 < q.items.length := Nat.pos_of_ne_zero hempty
  refine ⟨?_, ?_⟩
  · intro hagree
    left
    by_contra hlong
    exact hq.not_peekAgrees hopen hsome (by omega) hagree
  · intro hcases
    have hshort : length.toNat ≤ q.items.length := by
      rcases hcases with hshort | hzero | hset
      · exact hshort
      · exact absurd hzero hempty
      · exact absurd hset hfull
    apply hq.peekAgrees
    rw [hq.peek_open hopen hsome, hq.take_eq_slots, Nat.min_eq_left hshort, UInt64.ofNat_toNat]

/-- One byte is there, two are asked for, and the second comes from a slot never written. -/
theorem peek_past_the_end :
    Reached 4 ⟨#[7, 0, 0, 0], 4, 0, 1, false⟩ ∧
      (⟨#[7, 0, 0, 0], 4, 0, 1, false⟩ : RingBuffer).peek 2 = .ok (2, [7, 0]) ∧
      (⟨#[7, 0, 0, 0], 4, 0, 1, false⟩ : RingBuffer).read 2
        = .ok (⟨#[7, 0, 0, 0], 4, 1, 1, false⟩, 1, [7]) ∧
      ¬PeekAgrees ⟨#[7, 0, 0, 0], 4, 0, 1, false⟩ 2 := by
  refine ⟨⟨⟨#[0, 0, 0, 0], 4, 0, 0, false⟩, [.write [7]], [.written 1], rfl, rfl⟩, rfl, rfl, ?_⟩
  intro hagree
  obtain ⟨rb', count, dest, hpeek, hread, _⟩ := hagree
  have hcount : count = 2 := (congrArg Prod.fst (Except.ok.inj hpeek)).symm
  have hcount' : count = 1 := (congrArg (·.2.1) (Except.ok.inj hread)).symm
  rw [hcount] at hcount'
  exact absurd hcount' (by decide)

/-- Two of three bytes. -/
theorem peekAgrees_two : PeekAgrees ⟨#[7, 8, 9, 0], 4, 0, 3, false⟩ 2 :=
  (peekAgrees_iff 4 ⟨#[7, 8, 9, 0], 4, 0, 3, false⟩
    ⟨⟨#[0, 0, 0, 0], 4, 0, 0, false⟩, [.write [7, 8, 9]], [.written 3], rfl, rfl⟩ 2).mpr
    (Or.inl (by decide))

end Core.RingBuffer
