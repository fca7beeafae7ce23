/-
When the lengths given to `AdvanceRead` and `AdvanceWrite` are wrong.

Nothing checks them, so a buffer can get into a state that holds nothing: the flag says full and the
positions differ.  Every other sound state holds the bytes from `_readPos` on, as many as
`ReadableBytes()` says, whether or not a caller meant them.  One operation alone leads out of the
states that hold something, an `AdvanceWrite` on a buffer whose flag is set, and any step that
clears the flag leads back.  So a broken buffer does not stay broken: the next byte read repairs it.
-/
import Cube.Core.Buffer.Safety
import Cube.Core.Buffer.Transfer

namespace Core.RingBuffer

open Library

/-- The flag says full and the positions differ. -/
def Broken (rb : RingBuffer) : Prop := rb.isFull = true ∧ rb.readPos ≠ rb.writePos

/-- `AdvanceWrite(length)` on a buffer whose flag is set, with the positions apart afterwards. -/
def Overruns (rb : RingBuffer) (length : UInt64) : Prop :=
  rb.isFull = true ∧ (rb.writePos + length) % rb.capacity ≠ rb.readPos

/-- Does nothing to a broken buffer. -/
def Operation.Idle : Operation → Prop
  | .write _ | .peek _ => True
  | .read length => length = 0
  | .advanceRead _ | .advanceWrite _ => False

/-- Clears the flag of a broken buffer. -/
def Operation.Clears : Operation → Prop
  | .read length => length ≠ 0
  | .advanceRead _ => True
  | .write _ | .peek _ | .advanceWrite _ => False

/-- After the last `AdvanceWrite` of the run, which overran, nothing but idle operations. -/
def Overrun (rb : RingBuffer) (ops : List Operation) : Prop :=
  ∃ before length after rb₁, ops = before ++ .advanceWrite length :: after ∧
    rb.performAll before = .ok rb₁ ∧ rb₁.Overruns length ∧ ∀ op ∈ after, op.Idle

variable {rb rb' rb₁ : RingBuffer}

/-! ### What a sound buffer holds -/

namespace Sound

/-- As many bytes as are readable, from `_readPos` on. -/
def held (h : Sound rb) : Fifo UInt8 rb.capacity.toNat where
  items := slots rb.buffer rb.readPos.toNat rb.readableBytes.toNat
  bounded := by
    rw [slots_length]
    exact UInt64.le_iff_toNat_le.mp h.readable

theorem held_length (h : Sound rb) : h.held.items.length = rb.readableBytes.toNat := slots_length

/-- The write position is the slot after the bytes that are held. -/
theorem writePos_held (h : Sound rb) (hb : ¬Broken rb) :
    rb.writePos.toNat = (rb.readPos.toNat + rb.readableBytes.toNat) % rb.capacity.toNat := by
  have hread := h.readPos_toNat
  have hwrite := h.writePos_toNat
  unfold readableBytes
  split
  · have hmeet : rb.readPos = rb.writePos := by
      by_contra hne
      exact hb ⟨‹_›, hne⟩
    rw [Nat.add_mod_right, Nat.mod_eq_of_lt hread, hmeet]
  · split
    · have hle : rb.readPos.toNat ≤ rb.writePos.toNat := UInt64.le_iff_toNat_le.mp ‹_›
      rw [UInt64.toNat_sub_of_le _ _ ‹_›, Nat.add_sub_cancel' hle, Nat.mod_eq_of_lt hwrite]
    · have hsum : rb.readPos.toNat + (rb.capacity.toNat - rb.readPos.toNat + rb.writePos.toNat)
          = rb.writePos.toNat + rb.capacity.toNat := by omega
      rw [h.wrapped, hsum, Nat.add_mod_right, Nat.mod_eq_of_lt hwrite]

/-- Only with the flag set is everything readable. -/
theorem isFull_iff (h : Sound rb) :
    rb.isFull = true ↔ rb.readableBytes.toNat = rb.capacity.toNat := by
  have hread := h.readPos_toNat
  have hwrite := h.writePos_toNat
  unfold readableBytes
  split
  · exact iff_of_true ‹_› rfl
  · refine iff_of_false ‹_› ?_
    split
    · rw [UInt64.toNat_sub_of_le _ _ ‹_›]
      omega
    · have hlt : rb.writePos.toNat < rb.readPos.toNat :=
        UInt64.lt_iff_toNat_lt.mp (UInt64.not_le.mp ‹_›)
      rw [h.wrapped]
      omega

theorem represents (h : Sound rb) (hb : ¬Broken rb) : Represents rb h.held where
  capacity := rfl
  size := h.size
  readPos := fun _ => h.readPos_toNat
  start := fun hzero => absurd h.readPos_toNat (by omega)
  writePos := by
    rw [h.held_length]
    exact h.writePos_held hb
  isFull := by
    have hpos := Nat.zero_lt_of_lt h.readPos_toNat
    rw [h.held_length, h.isFull_iff]
    exact (and_iff_right hpos).symm
  window := Window.slots (by rw [h.size]; exact UInt64.le_iff_toNat_le.mp h.readable)

end Sound

/-- A buffer that holds something is not broken. -/
theorem Represents.not_broken {C : Nat} {q : Fifo UInt8 C} (h : Represents rb q) : ¬Broken rb := by
  intro hb
  obtain ⟨hC, hlen⟩ := h.isFull.mp hb.1
  apply hb.2
  rw [← UInt64.toNat_inj, h.writePos, hlen, Nat.add_mod_right, Nat.mod_eq_of_lt (h.readPos hC)]

/-! ### One operation -/

/-- A turn of the loop in `Write` is made with the flag clear, and sets it where the positions
meet. -/
theorem Sound.writeByte_not_broken (h : Sound rb) (hroom : rb.writableBytes > 0) {byte : UInt8}
    (hbyte : rb.writeByte byte = .ok rb') : ¬Broken rb ∧ ¬Broken rb' := by
  have hclear : ¬rb.isFull = true := by
    intro hfull
    have hfree := h.writable
    rw [h.isFull_iff.mp hfull, Nat.sub_self] at hfree
    rw [gt_iff_lt, UInt64.lt_iff_toNat_lt, hfree] at hroom
    exact absurd hroom (Nat.lt_irrefl 0)
  refine ⟨fun hb => hclear hb.1, ?_⟩
  obtain ⟨pos', hwrap, -⟩ := h.wrap rb.writePos 1
  unfold RingBuffer.writeByte store at hbyte
  rw [if_pos (h.size ▸ h.writePos_toNat), hwrap] at hbyte
  obtain rfl := Except.ok.inj hbyte
  intro hb
  obtain ⟨hfull, hne⟩ := hb
  rw [if_neg (fun heq => hne heq.symm)] at hfull
  exact hclear hfull

theorem writeLoop_broken (src : List UInt8) :
    ∀ {rb rb' : RingBuffer} {written count : UInt64}, Sound rb →
      rb.writeLoop written src = .ok (rb', count) → (Broken rb' ↔ Broken rb) := by
  induction src with
  | nil =>
      intro rb rb' written count _ hloop
      cases hloop
      exact Iff.rfl
  | cons byte rest ih =>
      intro rb rb' written count h hloop
      unfold writeLoop at hloop
      split at hloop
      · obtain ⟨rb₁, hbyte, h₁, -⟩ := h.writeByte byte
        rw [hbyte] at hloop
        obtain ⟨hb, hb₁⟩ := h.writeByte_not_broken ‹_› hbyte
        rw [ih h₁ hloop]
        exact iff_of_false hb₁ hb
      · cases hloop
        exact Iff.rfl

/-- `Read` clears the flag with the first byte. -/
theorem readLoop_flag (remaining : Nat) :
    ∀ {rb rb' : RingBuffer} {read count : UInt64} {dest dest' : List UInt8}, Sound rb →
      rb.readLoop read dest remaining = .ok (rb', count, dest') →
      rb'.isFull = false ∨ rb' = rb ∧ (remaining = 0 ∨ ¬rb.readableBytes > 0) := by
  induction remaining with
  | zero =>
      intro rb rb' read count dest dest' _ hloop
      cases hloop
      exact .inr ⟨rfl, .inl rfl⟩
  | succ n ih =>
      intro rb rb' read count dest dest' h hloop
      unfold readLoop at hloop
      split at hloop
      · obtain ⟨pos', hwrap, -⟩ := h.wrap rb.readPos 1
        obtain ⟨byte, hload⟩ := h.load h.readPos
        obtain ⟨rb₁, byte₁, hbyte, h₁, -⟩ := h.readByte
        have hclear : rb₁.isFull = false := by
          simp only [readByte, hload, hwrap, bind, Except.bind] at hbyte
          obtain ⟨rfl, -⟩ := Prod.mk.inj (Except.ok.inj hbyte)
          rfl
        rw [hbyte] at hloop
        rcases ih h₁ hloop with hflag | ⟨rfl, -⟩
        · exact .inl hflag
        · exact .inl hclear
      · cases hloop
        exact .inr ⟨rfl, .inr ‹_›⟩

theorem Sound.read_broken (h : Sound rb) {length count : UInt64} {dest : List UInt8}
    (hread : rb.read length = .ok (rb', count, dest)) :
    Broken rb' ↔ Broken rb ∧ length = 0 := by
  have hzero : length = 0 ↔ length.toNat = 0 := by
    rw [← UInt64.toNat_inj]
    rfl
  rw [hzero]
  refine ⟨?_, ?_⟩
  · intro hb
    rcases readLoop_flag length.toNat h hread with hclear | ⟨rfl, hnone | hempty⟩
    · exact absurd (hb.1.symm.trans hclear) Bool.noConfusion
    · exact ⟨hb, hnone⟩
    · -- everything is readable while the flag is set
      have hall := h.isFull_iff.mp hb.1
      rw [gt_iff_lt, UInt64.lt_iff_toNat_lt, hall] at hempty
      exact absurd (Nat.zero_lt_of_lt h.readPos_toNat) hempty
  · intro hb
    unfold read at hread
    rw [hb.2] at hread
    cases hread
    exact hb.1

theorem Sound.advanceRead_not_broken (h : Sound rb) {length : UInt64}
    (hadvance : rb.advanceRead length = .ok rb') : ¬Broken rb' := by
  obtain ⟨pos', hwrap, -⟩ := h.wrap rb.readPos length
  unfold RingBuffer.advanceRead at hadvance
  rw [hwrap] at hadvance
  intro hb
  have hfull := hb.1
  rw [← Except.ok.inj hadvance] at hfull
  exact Bool.noConfusion hfull

theorem Sound.advanceWrite_broken (h : Sound rb) {length : UInt64}
    (hadvance : rb.advanceWrite length = .ok rb') : Broken rb' ↔ rb.Overruns length := by
  unfold RingBuffer.advanceWrite RingBuffer.wrap at hadvance
  rw [if_neg h.capacity_ne_zero] at hadvance
  obtain rfl := Except.ok.inj hadvance
  unfold Broken Overruns
  by_cases hmeet : (rb.writePos + length) % rb.capacity = rb.readPos
  · simp [hmeet]
  · simp [hmeet, Ne.symm hmeet]

/-- A broken buffer after an operation: the operation overran, or it was idle on a broken one. -/
theorem Sound.perform_broken (h : Sound rb) {op : Operation} (hop : rb.perform op = .ok rb₁) :
    Broken rb₁ ↔ (∃ length, op = .advanceWrite length ∧ rb.Overruns length) ∨
      Broken rb ∧ op.Idle := by
  cases op with
  | write src =>
      obtain ⟨rb₂, count, hwrite, -⟩ := writeLoop src 0 h
      simp only [RingBuffer.perform, write, hwrite, bind, Except.bind] at hop
      obtain rfl : rb₂ = rb₁ := Except.ok.inj hop
      simp [writeLoop_broken src h hwrite, Operation.Idle]
  | read length =>
      obtain ⟨rb₂, count, dest, hread, -⟩ := readLoop length.toNat 0 [] h
      simp only [RingBuffer.perform, read, hread, bind, Except.bind] at hop
      obtain rfl : rb₂ = rb₁ := Except.ok.inj hop
      simp [h.read_broken hread, Operation.Idle]
  | peek length =>
      obtain ⟨out, hpeek⟩ := h.peekLoop length.toNat 0 [] h.readPos
      simp only [RingBuffer.perform, peek, hpeek, bind, Except.bind] at hop
      obtain rfl : rb = rb₁ := Except.ok.inj hop
      simp [Operation.Idle]
  | advanceRead length => simp [h.advanceRead_not_broken hop, Operation.Idle]
  | advanceWrite length => simp [h.advanceWrite_broken hop, Operation.Idle]

theorem Operation.Clears.not_idle {op : Operation} (h : op.Clears) : ¬op.Idle := by
  cases op with
  | read length => exact h
  | _ => simp_all [Operation.Clears, Operation.Idle]

/-- A step that clears the flag leaves a buffer that holds something, whatever it was before. -/
theorem Sound.perform_clears (h : Sound rb) {op : Operation} (hclears : op.Clears)
    (hop : rb.perform op = .ok rb₁) : ¬Broken rb₁ := by
  rw [h.perform_broken hop]
  intro hb
  rcases hb with ⟨length, rfl, -⟩ | ⟨-, hidle⟩
  · exact hclears
  · exact hclears.not_idle hidle

/-! ### A run -/

/-- The `AdvanceWrite` that overran is the first operation, or a later one. -/
theorem overrun_cons {op : Operation} {rest : List Operation} (hop : rb.perform op = .ok rb₁) :
    Overrun rb (op :: rest) ↔
      ((∃ length, op = .advanceWrite length ∧ rb.Overruns length) ∧ ∀ a ∈ rest, a.Idle) ∨
      Overrun rb₁ rest := by
  have hall : ∀ ops, rb.performAll (op :: ops) = rb₁.performAll ops := by
    intro ops
    rw [RingBuffer.performAll, hop]
    rfl
  refine ⟨?_, ?_⟩
  · intro hover
    obtain ⟨before, length, after, rb₂, hops, hbefore, hover, hidle⟩ := hover
    cases before with
    | nil =>
        obtain ⟨rfl, rfl⟩ := List.cons.inj hops
        obtain rfl : rb = rb₂ := Except.ok.inj hbefore
        exact .inl ⟨⟨length, rfl, hover⟩, hidle⟩
    | cons first before =>
        obtain ⟨rfl, rfl⟩ := List.cons.inj hops
        rw [hall] at hbefore
        exact .inr ⟨before, length, after, rb₂, rfl, hbefore, hover, hidle⟩
  · intro hcases
    rcases hcases with ⟨⟨length, rfl, hover⟩, hidle⟩ | hover
    · exact ⟨[], length, rest, rb, rfl, rfl, hover, hidle⟩
    · obtain ⟨before, length, after, rb₂, rfl, hbefore, hover, hidle⟩ := hover
      exact ⟨op :: before, length, after, rb₂, rfl, by rwa [hall], hover, hidle⟩

/-- Broken at the end: by an overrun on the way, or from the start with nothing but idle
operations. -/
theorem performAll_broken (ops : List Operation) :
    ∀ {rb rb' : RingBuffer}, Sound rb → rb.performAll ops = .ok rb' →
      (Broken rb' ↔ Overrun rb ops ∨ Broken rb ∧ ∀ op ∈ ops, op.Idle) := by
  induction ops with
  | nil =>
      intro rb rb' _ hrun
      cases hrun
      simp [Overrun]
  | cons op rest ih =>
      intro rb rb' h hrun
      obtain ⟨rb₁, hop, h₁, -⟩ := h.perform op
      rw [RingBuffer.performAll, hop] at hrun
      rw [ih h₁ hrun, overrun_cons hop, h.perform_broken hop, List.forall_mem_cons, or_and_right,
        and_assoc, or_left_comm, or_assoc]

/-- **A wrong length does no lasting harm.**  After any operations on a new buffer it holds a queue
of bytes, unless the run ends with an `AdvanceWrite` that overran and idle operations after it.
And whatever the run was, the next `AdvanceRead`, or the next `Read` of a byte, leaves a buffer that
holds a queue, and the calls that follow report what this queue reports. -/
theorem represents_iff_not_overrun (capacity : UInt64) (hC : 1 ≤ capacity) (rb : RingBuffer)
    (h : construct capacity = .ok rb) (ops : List Operation) :
    ∃ rb', rb.performAll ops = .ok rb' ∧
      ((∃ q : Fifo UInt8 capacity.toNat, Represents rb' q) ↔ ¬Overrun rb ops) ∧
      ∀ op : Operation, op.Clears → ∃ rb₁, rb'.perform op = .ok rb₁ ∧
        ∃ q : Fifo UInt8 capacity.toNat, Represents rb₁ q ∧
          q.items = slots rb₁.buffer rb₁.readPos.toNat rb₁.readableBytes.toNat ∧
          ∀ calls, ∃ rb₂ outs, rb₁.run calls = .ok (rb₂, outs) ∧
            List.Forall₂ Outcome.Reports outs (q.run (calls.map Call.toFifo)).2 := by
  obtain ⟨hsound, rfl⟩ := construct_sound hC h
  obtain ⟨rb', hrun, h', hcap'⟩ := Sound.performAll ops hsound
  have hstart : ¬Broken rb := (construct_represents h).not_broken
  have hbroken := performAll_broken ops hsound hrun
  refine ⟨rb', hrun, ?_, ?_⟩
  · rw [← hcap']
    refine ⟨?_, ?_⟩
    · intro hholds hover
      obtain ⟨q, hq⟩ := hholds
      exact hq.not_broken (hbroken.mpr (.inl hover))
    · intro hno
      refine ⟨h'.held, h'.represents fun hb => ?_⟩
      rcases hbroken.mp hb with hover | hbefore
      · exact hno hover
      · exact hstart hbefore.1
  · intro op hclears
    obtain ⟨rb₁, hop, h₁, hcap₁⟩ := h'.perform op
    have hheld := h₁.represents (h'.perform_clears hclears hop)
    rw [← hcap', ← hcap₁]
    refine ⟨rb₁, hop, h₁.held, hheld, rfl, ?_⟩
    intro calls
    obtain ⟨rb₂, outs, hcalls, -, houts⟩ := run_represents calls hheld
    exact ⟨rb₂, outs, hcalls, houts⟩

/-- A full buffer is advanced by one byte more, and an `AdvanceRead` by nothing repairs it. -/
theorem represents_iff_not_overrun_two :
    ∃ rb', (⟨#[0, 0], 2, 0, 0, false⟩ : RingBuffer).performAll
        [.advanceWrite 2, .advanceWrite 1, .write [7]] = .ok rb' ∧
      (¬∃ q : Fifo UInt8 2, Represents rb' q) ∧
      ∃ rb₁, rb'.perform (.advanceRead 0) = .ok rb₁ ∧ ∃ q : Fifo UInt8 2, Represents rb₁ q := by
  obtain ⟨rb', hrun, hiff, hclears⟩ := represents_iff_not_overrun 2 (by decide)
    ⟨#[0, 0], 2, 0, 0, false⟩ rfl [.advanceWrite 2, .advanceWrite 1, .write [7]]
  have hover : Overrun ⟨#[0, 0], 2, 0, 0, false⟩ [.advanceWrite 2, .advanceWrite 1, .write [7]] :=
    ⟨[.advanceWrite 2], 1, [.write [7]], ⟨#[0, 0], 2, 0, 0, true⟩, rfl, rfl,
      ⟨rfl, by decide⟩, by simp [Operation.Idle]⟩
  refine ⟨rb', hrun, fun hholds => hiff.mp hholds hover, ?_⟩
  obtain ⟨rb₁, hop, q, hq, -⟩ := hclears (.advanceRead 0) trivial
  exact ⟨rb₁, hop, q, hq⟩

end Core.RingBuffer
