/-
Reads and writes that do not depend on each other.

A total length to read that is unread at the start, and bytes to write that fit at the start, can
be split into calls and interleaved at will.  Whatever the split and the order, the calls pass
through different states, some of them exactly empty or exactly full, and end in the same one.
-/
import Cube.Core.Buffer.Transfer

namespace Core.RingBuffer

open Library

variable {C : Nat}

/-! ### What a sequence of calls asks for -/

/-- The lengths of the reads, added up. -/
def readTotal : List Call → Nat
  | [] => 0
  | .write _ :: rest => readTotal rest
  | .read length :: rest => length.toNat + readTotal rest

/-- The bytes of the writes, one after the other. -/
def writeTotal : List Call → List UInt8
  | [] => []
  | .write src :: rest => src ++ writeTotal rest
  | .read _ :: rest => writeTotal rest

/-- The bytes the reads stored, one after the other. -/
def delivered : List Outcome → List UInt8
  | [] => []
  | .written _ :: rest => delivered rest
  | .read _ dest :: rest => dest ++ delivered rest

/-- The call did all it was asked for. -/
def Outcome.Completes : Call → Outcome → Prop
  | .write src, .written count => count.toNat = src.length
  | .read length, .read count dest => count = length ∧ dest.length = length.toNat
  | _, _ => False

/-! ### One call, then all -/

/-- The calls leave what was unread and what they wrote, less what they read.  The bytes written
lie in the slots behind the old `_writePos`. -/
structure Transferred (rb rb' : RingBuffer) (q : Fifo UInt8 C) (read : Nat)
    (written : List UInt8) : Prop where
  contents : ∃ q' : Fifo UInt8 C, Represents rb' q' ∧
    q'.items = (q.items ++ written).drop read
  storage : rb'.buffer = place rb.buffer rb.writePos.toNat written
  writePos : rb'.writePos.toNat % C = (rb.writePos.toNat + written.length) % C

/-- What the calls leave is determined by what they ask for in total. -/
theorem Transferred.unique {rb rb₁ rb₂ : RingBuffer} {q : Fifo UInt8 C} {read : Nat}
    {written : List UInt8} (h₁ : Transferred rb rb₁ q read written)
    (h₂ : Transferred rb rb₂ q read written) : rb₁ = rb₂ := by
  obtain ⟨q₁, hq₁, hitems₁⟩ := h₁.contents
  obtain ⟨q₂, hq₂, hitems₂⟩ := h₂.contents
  have hlen : q₁.items.length = q₂.items.length := by rw [hitems₁, hitems₂]
  have hwrite : rb₁.writePos = rb₂.writePos := by
    have hmod := h₁.writePos.trans h₂.writePos.symm
    rw [hq₁.writePos, hq₂.writePos, Nat.mod_mod, Nat.mod_mod] at hmod
    rw [← UInt64.toNat_inj, hq₁.writePos, hq₂.writePos, hmod]
  exact hq₁.ext hq₂ hlen (h₁.storage.trans h₂.storage.symm) (hq₁.readPos_eq hq₂ hlen hwrite)

/-- A write that fits, and then the rest. -/
theorem Transferred.write {rb rb₁ rb' : RingBuffer} {q : Fifo UInt8 C} {src written : List UInt8}
    {read : Nat} (h : Represents rb q) (hfits : src.length ≤ q.free)
    (h₁ : Represents rb₁ (q.write src)) (hread : rb₁.readPos = rb.readPos)
    (hbuffer : rb₁.buffer = place rb.buffer rb.writePos.toNat src)
    (hrest : Transferred rb₁ rb' (q.write src) read written) :
    Transferred rb rb' q read (src ++ written) := by
  have hitems := Fifo.write_items hfits
  have hlen : (q.write src).items.length = q.items.length + src.length := by
    rw [hitems, List.length_append]
  have hpos : rb₁.writePos.toNat % C = (rb.writePos.toNat + src.length) % C := by
    rw [h₁.writePos, Nat.mod_mod, hread, hlen, h.writePos, Nat.mod_add_mod, Nat.add_assoc]
  refine ⟨?_, ?_, ?_⟩
  · obtain ⟨q', hq', hleft⟩ := hrest.contents
    refine ⟨q', hq', ?_⟩
    rw [hleft, hitems, List.append_assoc]
  · rw [hrest.storage, place_append, hbuffer]
    apply place_congr
    rw [place_size, h.size]
    exact hpos
  · rw [hrest.writePos, Nat.add_mod, hpos, ← Nat.add_mod, Nat.add_assoc, List.length_append]

/-- A read of bytes that are there, and then the rest. -/
theorem Transferred.read {rb rb₁ rb' : RingBuffer} {q : Fifo UInt8 C} {written : List UInt8}
    {n read : Nat} (hn : n ≤ q.items.length) (hbuffer : rb₁.buffer = rb.buffer)
    (hwrite : rb₁.writePos = rb.writePos) (hrest : Transferred rb₁ rb' (q.read n) read written) :
    Transferred rb rb' q (n + read) written := by
  refine ⟨?_, ?_, ?_⟩
  · obtain ⟨q', hq', hleft⟩ := hrest.contents
    refine ⟨q', hq', ?_⟩
    have hdrop : (q.items ++ written).drop n = (q.read n).items ++ written :=
      List.drop_append_of_le_length hn
    rw [hleft, ← List.drop_drop, hdrop]
  · rw [hrest.storage, hbuffer, hwrite]
  · rw [hrest.writePos, hwrite]

/-- The induction on the calls.  A read leaves more room for the writes to come, and a write leaves
more for the reads. -/
theorem run_transferred (calls : List Call) :
    ∀ {rb : RingBuffer} {q : Fifo UInt8 C}, Represents rb q →
      readTotal calls ≤ q.items.length → (writeTotal calls).length ≤ q.free →
      ∃ rb' outs, rb.run calls = .ok (rb', outs) ∧
        Transferred rb rb' q (readTotal calls) (writeTotal calls) ∧
        delivered outs = q.items.take (readTotal calls) ∧
        List.Forall₂ Outcome.Completes calls outs := by
  induction calls with
  | nil =>
      intro rb q h _ _
      refine ⟨rb, [], rfl, ⟨⟨q, h, ?_⟩, rfl, rfl⟩, rfl, .nil⟩
      simp [writeTotal, readTotal]
  | cons c rest ih =>
      intro rb q h hreads hwrites
      have hlen := q.bounded
      have hfree : q.free = C - q.items.length := rfl
      cases c with
      | write src =>
          simp only [readTotal, writeTotal, List.length_append] at hreads hwrites ⊢
          have hfits : src.length ≤ q.free := by omega
          obtain ⟨rb₁, count, hwrite, hcount, h₁, hread₁, hbuffer₁⟩ := h.write_state hfits
          have hitems₁ := Fifo.write_items hfits
          have hlen₁ : (q.write src).items.length = q.items.length + src.length := by
            rw [hitems₁, List.length_append]
          have hfree₁ : (q.write src).free = C - (q.write src).items.length := rfl
          obtain ⟨rb', outs, hrun, htrans, hdeliv, hall⟩ := ih h₁ (by omega) (by omega)
          refine ⟨rb', .written count :: outs, run_cons (call_write hwrite) hrun,
            htrans.write h hfits h₁ hread₁ hbuffer₁, ?_, .cons hcount hall⟩
          show delivered outs = _
          rw [hdeliv, hitems₁, List.take_append_of_le_length hreads]
      | read length =>
          simp only [readTotal, writeTotal] at hreads hwrites ⊢
          obtain ⟨rb₁, count, hread, hcount, h₁, hbuffer₁, hwrite₁⟩ := h.read_state length
          have hlen₁ : (q.read length.toNat).items.length = q.items.length - length.toNat :=
            List.length_drop ..
          have hfree₁ : (q.read length.toNat).free = C - (q.read length.toNat).items.length := rfl
          obtain ⟨rb', outs, hrun, htrans, hdeliv, hall⟩ := ih h₁ (by omega) (by omega)
          have hwhole : count = length ∧ (q.items.take length.toNat).length = length.toNat := by
            rw [← UInt64.toNat_inj, hcount, List.length_take]
            omega
          refine ⟨rb', .read count (q.items.take length.toNat) :: outs,
            run_cons (call_read hread) hrun, htrans.read (by omega) hbuffer₁ hwrite₁, ?_,
            .cons hwhole hall⟩
          show q.items.take length.toNat ++ delivered outs = _
          rw [hdeliv, List.take_add]
          rfl

/-! ### Independence -/

/-- **Independent reads and writes commute.**  From a reached state, fix a number of bytes to read
that are unread there and bytes to write that fit there.  Every sequence of calls that asks for
them, however it splits and interleaves them, ends in one and the same state, delivers the same
bytes, and each of its calls is served in full. -/
theorem independent_calls (capacity : UInt64) (rb : RingBuffer) (h : Reached capacity rb)
    (r : Nat) (ws : List UInt8) (hr : r ≤ rb.readableBytes.toNat)
    (hws : ws.length ≤ rb.writableBytes.toNat) :
    ∃ rb' dest, dest.length = r ∧ ∀ calls, readTotal calls = r → writeTotal calls = ws →
      ∃ outs, rb.run calls = .ok (rb', outs) ∧ delivered outs = dest ∧
        List.Forall₂ Outcome.Completes calls outs := by
  obtain ⟨q, hq⟩ := h.represents
  rw [hq.readableBytes] at hr
  rw [hq.writableBytes] at hws
  have hbound := rb.capacity.toNat_lt
  have hlen := q.bounded
  have hcap := hq.capacity
  -- one read and one write, in this order, give the state
  have htoNat : (UInt64.ofNat r).toNat = r := hq.toNat_ofNat (by omega)
  have hreads : readTotal [.read (.ofNat r), .write ws] = r := by
    simp only [readTotal, htoNat, Nat.add_zero]
  have hwrites : writeTotal [.read (.ofNat r), .write ws] = ws := List.append_nil ws
  obtain ⟨rb', _, _, htrans, _⟩ :=
    run_transferred [.read (.ofNat r), .write ws] hq (by omega) (by rw [hwrites]; exact hws)
  rw [hreads, hwrites] at htrans
  refine ⟨rb', q.items.take r, by rw [List.length_take]; omega, ?_⟩
  intro calls hreads' hwrites'
  obtain ⟨rb₂, outs, hrun, htrans₂, hdeliv, hall⟩ :=
    run_transferred calls hq (by omega) (by rw [hwrites']; exact hws)
  rw [hreads', hwrites'] at htrans₂
  rw [hreads'] at hdeliv
  obtain rfl := htrans.unique htrans₂
  exact ⟨outs, hrun, hdeliv, hall⟩

/-- Two bytes in a buffer for three: one out and one in, in both orders. -/
theorem independent_calls_two :
    ∃ rb' dest, dest.length = 1 ∧
      (∃ outs, (⟨#[7, 8, 9], 3, 0, 2, false⟩ : RingBuffer).run [.read 1, .write [5]]
        = .ok (rb', outs) ∧ delivered outs = dest) ∧
      ∃ outs, (⟨#[7, 8, 9], 3, 0, 2, false⟩ : RingBuffer).run [.write [5], .read 0, .read 1]
        = .ok (rb', outs) ∧ delivered outs = dest := by
  obtain ⟨rb', dest, hlen, hall⟩ := independent_calls 3 ⟨#[7, 8, 9], 3, 0, 2, false⟩
    ⟨⟨#[0, 0, 0], 3, 0, 0, false⟩, [.write [7, 8, 9], .read 3, .write [7, 8]],
      [.written 3, .read 3 [7, 8, 9], .written 2], rfl, rfl⟩ 1 [5] (by decide) (by decide)
  obtain ⟨outs, hrun, hdeliv, -⟩ := hall [.read 1, .write [5]] rfl rfl
  obtain ⟨outs', hrun', hdeliv', -⟩ := hall [.write [5], .read 0, .read 1] rfl rfl
  exact ⟨rb', dest, hlen, ⟨outs, hrun, hdeliv⟩, outs', hrun', hdeliv'⟩

end Core.RingBuffer
