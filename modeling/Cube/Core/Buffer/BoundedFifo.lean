/-
`RingBuffer` is a bounded queue of bytes.

`Represents rb q` ties the positions, the flag and the storage of `rb` to the list of unread
bytes.  The flag is what makes the list a function of the buffer: the positions coincide both
when it is empty and when it is full.  The two loops move one byte at a time, and so do `push`
and `pop` of the queue.
-/
import Cube.Library.Fifo
import Cube.Library.Window
import Cube.Core.Buffer.RingBuffer

namespace Core.RingBuffer

open Library

/-- The buffer holds the bytes of `q`: they lie in the storage from `_readPos` on, and
`_writePos` is the slot after them. -/
structure Represents (rb : RingBuffer) {C : Nat} (q : Fifo UInt8 C) : Prop where
  capacity : rb.capacity.toNat = C
  size : rb.buffer.size = C
  readPos : 0 < C → rb.readPos.toNat < C
  start : C = 0 → rb.readPos = 0
  writePos : rb.writePos.toNat = (rb.readPos.toNat + q.items.length) % C
  isFull : rb.isFull = true ↔ 0 < C ∧ q.items.length = C
  window : Window rb.buffer rb.readPos.toNat q.items

variable {rb : RingBuffer} {C : Nat} {q : Fifo UInt8 C}

/-! ### Positions -/

/-- Where the position after `n` more slots lies, without the remainder. -/
theorem wrap_cases {r n size : Nat} (hr : r < size) (hn : n ≤ size) :
    (r + n < size ∧ (r + n) % size = r + n) ∨ (size ≤ r + n ∧ (r + n) % size + size = r + n) := by
  rcases Nat.lt_or_ge (r + n) size with hlt | hge
  · exact Or.inl ⟨hlt, Nat.mod_eq_of_lt hlt⟩
  · refine Or.inr ⟨hge, ?_⟩
    rw [Nat.mod_eq_sub_mod hge, Nat.mod_eq_of_lt (by omega)]
    omega

/-- A position moved by a length that does not make the sum wrap. -/
theorem wrap_add {pos length : UInt64} (hcap : rb.capacity ≠ 0)
    (hsum : pos.toNat + length.toNat < 2 ^ 64) :
    ∃ pos', rb.wrap pos length = .ok pos' ∧
      pos'.toNat = (pos.toNat + length.toNat) % rb.capacity.toNat := by
  refine ⟨(pos + length) % rb.capacity, if_neg hcap, ?_⟩
  rw [UInt64.toNat_mod, UInt64.toNat_add, Nat.mod_eq_of_lt hsum]

/-- The two loops move a position by one slot. -/
theorem wrap_one {pos : UInt64} (h : pos.toNat < rb.capacity.toNat) :
    ∃ pos', rb.wrap pos 1 = .ok pos' ∧ pos'.toNat = (pos.toNat + 1) % rb.capacity.toNat := by
  have hne : rb.capacity ≠ 0 := by
    intro hzero
    rw [hzero] at h
    exact absurd h (Nat.not_lt_zero _)
  have hlt := rb.capacity.toNat_lt
  apply wrap_add hne
  rw [UInt64.toNat_one]
  omega

/-! ### What the buffer says of itself -/

theorem Represents.readableBytes (h : Represents rb q) :
    rb.readableBytes.toNat = q.items.length := by
  have hcap := h.capacity
  have hlen := q.bounded
  unfold RingBuffer.readableBytes
  split
  · rw [hcap, (h.isFull.mp ‹_›).2]
  · have hnot : ¬(0 < C ∧ q.items.length = C) := fun hf => ‹¬rb.isFull = true› (h.isFull.mpr hf)
    have hwrite := h.writePos
    split
    · have hle : rb.readPos.toNat ≤ rb.writePos.toNat := UInt64.le_iff_toNat_le.mp ‹_›
      rw [UInt64.toNat_sub_of_le _ _ ‹_›]
      rcases Nat.eq_zero_or_pos C with hzero | hpos
      · have hr := congrArg UInt64.toNat (h.start hzero)
        simp [hzero] at hwrite hlen hr ⊢
        omega
      · rcases wrap_cases (h.readPos hpos) hlen with ⟨_, hw⟩ | ⟨_, hw⟩ <;> omega
    · have hgt : rb.writePos.toNat < rb.readPos.toNat :=
        UInt64.lt_iff_toNat_lt.mp (UInt64.not_le.mp ‹_›)
      have hpos : 0 < C := by
        rcases Nat.eq_zero_or_pos C with hzero | hpos
        · rw [h.start hzero] at hgt
          exact absurd hgt (Nat.not_lt_zero _)
        · exact hpos
      have hread := h.readPos hpos
      have hle : rb.readPos ≤ rb.capacity := UInt64.le_iff_toNat_le.mpr (by omega)
      have hlt := rb.capacity.toNat_lt
      rw [UInt64.toNat_add, UInt64.toNat_sub_of_le _ _ hle]
      rcases wrap_cases hread hlen with ⟨_, hw⟩ | ⟨_, hw⟩
      · omega
      · rw [Nat.mod_eq_of_lt (by omega)]
        omega

theorem Represents.writableBytes (h : Represents rb q) : rb.writableBytes.toNat = q.free := by
  have hle : rb.readableBytes ≤ rb.capacity := by
    rw [UInt64.le_iff_toNat_le, h.readableBytes, h.capacity]
    exact q.bounded
  rw [RingBuffer.writableBytes, UInt64.toNat_sub_of_le _ _ hle, h.readableBytes, h.capacity]
  rfl

/-! ### One byte -/

/-- One turn of the loop in `Write`, on a buffer that is not full. -/
theorem Represents.writeByte (h : Represents rb q) (hroom : q.items.length < C) (byte : UInt8) :
    ∃ rb', rb.writeByte byte = .ok rb' ∧ Represents rb' (q.push byte hroom) := by
  have hC : 0 < C := Nat.zero_lt_of_lt hroom
  have hread := h.readPos hC
  have hwlt : rb.writePos.toNat < C := by
    rw [h.writePos]
    exact Nat.mod_lt _ hC
  obtain ⟨pos', hwrap, hpos'⟩ := wrap_one (h.capacity ▸ hwlt)
  have hstore : rb.store rb.writePos byte
      = .ok (rb.buffer.setIfInBounds rb.writePos.toNat byte) := if_pos (h.size ▸ hwlt)
  have hnext : pos'.toNat = (rb.readPos.toNat + (q.items.length + 1)) % C := by
    rw [hpos', h.capacity, h.writePos, Nat.mod_add_mod, Nat.add_assoc]
  -- the positions meet exactly when the byte was the last that fits
  have hmeet : pos' = rb.readPos ↔ q.items.length + 1 = C := by
    rw [← UInt64.toNat_inj, hnext]
    rcases wrap_cases (n := q.items.length + 1) hread hroom with ⟨_, hw⟩ | ⟨_, hw⟩ <;> omega
  refine ⟨{ rb with
    buffer := rb.buffer.setIfInBounds rb.writePos.toNat byte
    writePos := pos'
    isFull := if pos' = rb.readPos then true else rb.isFull }, ?_, ?_⟩
  · unfold RingBuffer.writeByte
    rw [hstore, hwrap]
    rfl
  · refine ⟨h.capacity, by simpa using h.size, h.readPos, h.start, ?_, ?_, ?_⟩
    · rw [Fifo.push_items, List.length_append]
      exact hnext
    · have hold : rb.isFull ≠ true := fun hf => absurd (h.isFull.mp hf).2 (by omega)
      by_cases hm : pos' = rb.readPos
      · simp [hm, hC, hmeet.mp hm]
      · have hlen : q.items.length + 1 ≠ C := fun heq => hm (hmeet.mpr heq)
        simp [hm, hold, hlen]
    · have hwin := h.window.snoc (h.size.symm ▸ hroom) byte
      rwa [h.size, ← h.writePos] at hwin

/-- One turn of the loop in `Read`, on a buffer that is not empty. -/
theorem Represents.readByte (h : Represents rb q) {byte : UInt8} {rest : List UInt8}
    (hitems : q.items = byte :: rest) :
    ∃ rb', rb.readByte = .ok (rb', byte) ∧ Represents rb' q.pop := by
  have hlen : q.items.length = rest.length + 1 := by rw [hitems, List.length_cons]
  have hle := q.bounded
  have hC : 0 < C := by omega
  have hread := h.readPos hC
  obtain ⟨pos', hwrap, hpos'⟩ := wrap_one (h.capacity ▸ hread)
  have hwin : Window rb.buffer rb.readPos.toNat (byte :: rest) := hitems ▸ h.window
  have hload : rb.load rb.readPos = .ok byte := by
    have hslot := hwin.head
    rw [h.size, Nat.mod_eq_of_lt hread] at hslot
    simp [RingBuffer.load, hslot]
  have hpop := Fifo.pop_items hitems
  refine ⟨{ rb with readPos := pos', isFull := false }, ?_, ?_⟩
  · unfold RingBuffer.readByte
    rw [hload, hwrap]
    rfl
  · refine ⟨h.capacity, h.size, fun _ => ?_, fun hzero => by omega, ?_, ?_, ?_⟩
    · rw [hpos', h.capacity]
      exact Nat.mod_lt _ hC
    · show rb.writePos.toNat = (pos'.toNat + q.pop.items.length) % C
      rw [hpos', hpop, h.capacity, h.writePos, hlen, Nat.mod_add_mod]
      congr 1
      omega
    · have hnot : rest.length ≠ C := by omega
      simp [hpop, hnot]
    · have htail := hwin.tail
      rw [h.size] at htail
      show Window rb.buffer pos'.toNat q.pop.items
      rwa [hpop, hpos', h.capacity]

/-! ### The two loops -/

/-- The loop in `Write`: what fits of the rest of `src` is appended. -/
theorem writeLoop_represents (src : List UInt8) :
    ∀ {rb : RingBuffer} {q : Fifo UInt8 C} (written : UInt64), Represents rb q →
      ∃ rb', rb.writeLoop written src = .ok (rb', written + .ofNat (min src.length q.free)) ∧
        Represents rb' (q.write src) := by
  induction src with
  | nil =>
      intro rb q written h
      exact ⟨rb, by simp [RingBuffer.writeLoop], by rwa [Fifo.write_nil]⟩
  | cons byte rest ih =>
      intro rb q written h
      have hfree : rb.writableBytes > 0 ↔ q.items.length < C := by
        rw [gt_iff_lt, UInt64.lt_iff_toNat_lt, h.writableBytes, Fifo.lt_capacity]
        rfl
      by_cases hroom : q.items.length < C
      · obtain ⟨rb₁, hbyte, h₁⟩ := h.writeByte hroom byte
        obtain ⟨rb', hloop, h'⟩ := ih (written + 1) h₁
        refine ⟨rb', ?_, by rwa [Fifo.write_cons q byte rest hroom]⟩
        have hcount : min (byte :: rest).length q.free
            = 1 + min rest.length (q.push byte hroom).free := by
          rw [Fifo.push_free q byte hroom, List.length_cons]
          omega
        rw [RingBuffer.writeLoop, if_pos (hfree.mpr hroom), hbyte, hcount, UInt64.ofNat_add,
          ← UInt64.add_assoc]
        exact hloop
      · have hzero : q.free = 0 := by
          have hno := mt Fifo.lt_capacity.mpr hroom
          omega
        refine ⟨rb, ?_, by rwa [Fifo.write_full hroom]⟩
        rw [RingBuffer.writeLoop, if_neg (mt hfree.mp hroom), hzero]
        simp

/-- The loop in `Read`: the oldest bytes are removed and stored after the earlier ones. -/
theorem readLoop_represents (remaining : Nat) :
    ∀ {rb : RingBuffer} {q : Fifo UInt8 C} (count : UInt64) (dest : List UInt8), Represents rb q →
      ∃ rb', rb.readLoop count dest remaining
          = .ok (rb', count + .ofNat (min remaining q.items.length),
              dest ++ q.items.take remaining) ∧
        Represents rb' (q.read remaining) := by
  induction remaining with
  | zero =>
      intro rb q count dest h
      exact ⟨rb, by simp [RingBuffer.readLoop], h⟩
  | succ n ih =>
      intro rb q count dest h
      have hsome : rb.readableBytes > 0 ↔ 0 < q.items.length := by
        rw [gt_iff_lt, UInt64.lt_iff_toNat_lt, h.readableBytes]
        rfl
      cases hitems : q.items with
      | nil =>
          have hstop : ¬rb.readableBytes > 0 := by simp [hsome, hitems]
          refine ⟨rb, ?_, by rwa [Fifo.read_empty hitems]⟩
          rw [RingBuffer.readLoop, if_neg hstop]
          simp
      | cons byte rest =>
          obtain ⟨rb₁, hbyte, h₁⟩ := h.readByte hitems
          obtain ⟨rb', hloop, h'⟩ := ih (count + 1) (dest ++ [byte]) h₁
          have hpop := Fifo.pop_items hitems
          have hcount : min (n + 1) (byte :: rest).length = 1 + min n rest.length := by
            rw [List.length_cons]
            omega
          refine ⟨rb', ?_, by rwa [Fifo.read_succ]⟩
          rw [RingBuffer.readLoop, if_pos (hsome.mpr (by simp [hitems])), hbyte, hcount,
            UInt64.ofNat_add, ← UInt64.add_assoc, List.take_succ_cons, List.append_cons]
          rw [hpop] at hloop
          exact hloop

/-! ### Calls -/

/-- A count of elements that fit in the buffer survives the conversion to `size_t`. -/
theorem Represents.toNat_ofNat (h : Represents rb q) {n : Nat} (hn : n ≤ C) :
    (UInt64.ofNat n).toNat = n := by
  have hlt := rb.capacity.toNat_lt
  rw [UInt64.toNat_ofNat', Nat.mod_eq_of_lt]
  rw [h.capacity] at hlt
  omega

theorem Represents.write (h : Represents rb q) (src : List UInt8) :
    ∃ rb' count, rb.write src = .ok (rb', count) ∧ count.toNat = min src.length q.free ∧
      Represents rb' (q.write src) := by
  obtain ⟨rb', hloop, h'⟩ := writeLoop_represents src 0 h
  have hle : min src.length q.free ≤ C := by unfold Fifo.free; omega
  rw [UInt64.zero_add] at hloop
  exact ⟨rb', _, hloop, h.toNat_ofNat hle, h'⟩

theorem Represents.read (h : Represents rb q) (length : UInt64) :
    ∃ rb' count, rb.read length = .ok (rb', count, q.items.take length.toNat) ∧
      count.toNat = min length.toNat q.items.length ∧ Represents rb' (q.read length.toNat) := by
  obtain ⟨rb', hloop, h'⟩ := readLoop_represents length.toNat 0 [] h
  have hlen := q.bounded
  have hle : min length.toNat q.items.length ≤ C := by omega
  rw [UInt64.zero_add, List.nil_append] at hloop
  exact ⟨rb', _, hloop, h.toNat_ofNat hle, h'⟩

/-- The call as the queue sees it. -/
def Call.toFifo : Call → Fifo.Call UInt8
  | .write src => .write src
  | .read length => .read length.toNat

/-- A call of the buffer reports what the queue reports. -/
def Outcome.Reports : Outcome → Fifo.Outcome UInt8 → Prop
  | .written count, .written n => count.toNat = n
  | .read count dest, .read xs => count.toNat = xs.length ∧ dest = xs
  | _, _ => False

theorem call_write {rb' : RingBuffer} {src : List UInt8} {count : UInt64}
    (h : rb.write src = .ok (rb', count)) : rb.call (.write src) = .ok (rb', .written count) := by
  simp only [RingBuffer.call, h]
  rfl

theorem call_read {rb' : RingBuffer} {length count : UInt64} {dest : List UInt8}
    (h : rb.read length = .ok (rb', count, dest)) :
    rb.call (.read length) = .ok (rb', .read count dest) := by
  simp only [RingBuffer.call, h]
  rfl

/-- The first call returns, and then the others. -/
theorem run_cons {rb₁ rb' : RingBuffer} {c : Call} {rest : List Call} {out : Outcome}
    {outs : List Outcome} (hcall : rb.call c = .ok (rb₁, out))
    (hrun : rb₁.run rest = .ok (rb', outs)) : rb.run (c :: rest) = .ok (rb', out :: outs) := by
  unfold RingBuffer.run
  rw [hcall]
  simp only [bind, Except.bind, hrun]
  rfl

theorem Represents.call (h : Represents rb q) (c : Call) :
    ∃ rb' out, rb.call c = .ok (rb', out) ∧ Represents rb' (q.call c.toFifo).1 ∧
      out.Reports (q.call c.toFifo).2 := by
  cases c with
  | write src =>
      obtain ⟨rb', count, hwrite, hcount, h'⟩ := h.write src
      exact ⟨rb', .written count, call_write hwrite, h', hcount⟩
  | read length =>
      obtain ⟨rb', count, hread, hcount, h'⟩ := h.read length
      refine ⟨rb', .read count (q.items.take length.toNat), call_read hread, h', ?_, rfl⟩
      rw [hcount, List.length_take]

theorem run_represents (calls : List Call) :
    ∀ {rb : RingBuffer} {q : Fifo UInt8 C}, Represents rb q →
      ∃ rb' outs, rb.run calls = .ok (rb', outs) ∧
        Represents rb' (q.run (calls.map Call.toFifo)).1 ∧
        List.Forall₂ Outcome.Reports outs (q.run (calls.map Call.toFifo)).2 := by
  induction calls with
  | nil =>
      intro rb q h
      exact ⟨rb, [], rfl, h, .nil⟩
  | cons c rest ih =>
      intro rb q h
      obtain ⟨rb₁, out, hcall, h₁, hout⟩ := h.call c
      obtain ⟨rb', outs, hrun, h', houts⟩ := ih h₁
      exact ⟨rb', out :: outs, run_cons hcall hrun, h', .cons hout houts⟩

theorem construct_represents {capacity : UInt64} (h : construct capacity = .ok rb) :
    Represents rb (Fifo.empty : Fifo UInt8 capacity.toNat) := by
  unfold construct at h
  split at h
  · cases h
    refine ⟨rfl, by simp, id, fun _ => rfl, by simp, ?_, Window.nil ..⟩
    simp
    omega
  · cases h

/-- The queue after these calls, and what it reports of each. -/
def spec (capacity : UInt64) (calls : List Call) :
    Fifo UInt8 capacity.toNat × List (Fifo.Outcome UInt8) :=
  Fifo.empty.run (calls.map Call.toFifo)

/-- **`RingBuffer` refines a bounded queue of bytes.**  Every sequence of calls on a new buffer
returns, with the reports of the queue, and leaves the buffer holding what the queue holds.  What
the calls of `Write` accepted is what the calls of `Read` delivered and then what is held. -/
theorem refines_fifo (capacity : UInt64) (rb : RingBuffer) (h : construct capacity = .ok rb)
    (calls : List Call) :
    ∃ rb' outs, rb.run calls = .ok (rb', outs) ∧
      Represents rb' (spec capacity calls).1 ∧
      List.Forall₂ Outcome.Reports outs (spec capacity calls).2 ∧
      rb'.readableBytes.toNat = (spec capacity calls).1.items.length ∧
      rb'.writableBytes.toNat = capacity.toNat - (spec capacity calls).1.items.length ∧
      Fifo.accepted (calls.map Call.toFifo) (spec capacity calls).2
        = Fifo.delivered (spec capacity calls).2 ++ (spec capacity calls).1.items := by
  obtain ⟨rb', outs, hrun, h', houts⟩ := run_represents calls (construct_represents h)
  have hhistory := Fifo.history (calls.map Call.toFifo) (Fifo.empty : Fifo UInt8 capacity.toNat)
  rw [Fifo.empty_items, List.nil_append] at hhistory
  exact ⟨rb', outs, hrun, h', houts, h'.readableBytes, h'.writableBytes, hhistory⟩

/-- Three bytes into a buffer for two, one byte out, the third byte in again. -/
theorem refines_fifo_two :
    ∃ rb', (⟨#[0, 0], 2, 0, 0, false⟩ : RingBuffer).run
        [.write [1, 2, 3], .read 1, .write [3], .read 5]
        = .ok (rb', [.written 2, .read 1 [1], .written 1, .read 2 [2, 3]]) ∧
      rb'.readableBytes.toNat = 0 := by
  obtain ⟨rb', outs, hrun, -, -, hreadable, -⟩ :=
    refines_fifo 2 ⟨#[0, 0], 2, 0, 0, false⟩ (by decide)
      [.write [1, 2, 3], .read 1, .write [3], .read 5]
  have houts : outs = [.written 2, .read 1 [1], .written 1, .read 2 [2, 3]] := by
    have hfst := congrArg (Except.map Prod.snd) hrun
    exact (Except.ok.inj hfst).symm
  subst houts
  exact ⟨rb', hrun, hreadable⟩

end Core.RingBuffer
