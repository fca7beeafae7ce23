/-
The whole interface of `RingBuffer` as a bounded queue.

`Write` and `Read` are safe to call at any time.  The other members leave something to their caller:
`Peek` does not stop at the last unread byte, the two `Advance`s check no length, and the pointers
point to a stretch of the storage that ends where the storage ends.  `Meets` says what the caller
owes in each state.  Under it a run of any mixture of the members is a run of the queue: peeking and
looking through `ReadPtr()` change nothing, `AdvanceRead` reads without delivering, and storing
through `WriterPtr()` with `AdvanceWrite` after it writes.
-/
import Cube.Core.Buffer.Peek
import Cube.Core.Buffer.Advance
import Cube.Core.Buffer.Safety

namespace Core.RingBuffer

open Library

/-! ### What a caller does -/

/-- `src` stored through a pointer to the index `pos`, byte after byte. -/
def storeAll (rb : RingBuffer) (pos : UInt64) : List UInt8 → Except Error RingBuffer
  | [] => .ok rb
  | byte :: rest => do
      let buffer ← rb.store pos byte
      { rb with buffer := buffer }.storeAll (pos + 1) rest

/-- That many bytes loaded through a pointer to the index `pos`. -/
def loadAll (rb : RingBuffer) (pos : UInt64) : Nat → Except Error (List UInt8)
  | 0 => .ok []
  | n + 1 => do
      let byte ← rb.load pos
      let rest ← rb.loadAll (pos + 1) n
      return byte :: rest

inductive Use where
  | write (src : List UInt8)
  | read (length : UInt64)
  | peek (length : UInt64)
  | view (length : UInt64)         -- look through `ReadPtr()`
  | advanceRead (length : UInt64)
  | receive (src : List UInt8)     -- store through `WriterPtr()`, then `AdvanceWrite`

/-- What the caller is told. -/
inductive Report where
  | counted (count : UInt64)
  | copied (count : UInt64) (dest : List UInt8)
  | viewed (bytes : List UInt8)
  | nothing
  deriving DecidableEq

def use (rb : RingBuffer) : Use → Except Error (RingBuffer × Report)
  | .write src => do
      let (rb', count) ← rb.write src
      return (rb', .counted count)
  | .read length => do
      let (rb', count, dest) ← rb.read length
      return (rb', .copied count dest)
  | .peek length => do
      let (count, dest) ← rb.peek length
      return (rb, .copied count dest)
  | .view length => do
      let pos ← rb.readPtr
      let bytes ← rb.loadAll pos length.toNat
      return (rb, .viewed bytes)
  | .advanceRead length => do
      let rb' ← rb.advanceRead length
      return (rb', .nothing)
  | .receive src => do
      let pos ← rb.writerPtr
      let rb₁ ← rb.storeAll pos src
      let rb' ← rb₁.advanceWrite (.ofNat src.length)
      return (rb', .nothing)

/-- One use after the other. -/
def useAll (rb : RingBuffer) : List Use → Except Error (RingBuffer × List Report)
  | [] => .ok (rb, [])
  | u :: rest => do
      let (rb', report) ← rb.use u
      let (rb'', reports) ← rb'.useAll rest
      return (rb'', report :: reports)

/-- What the source leaves to its caller in this state. -/
def Meets (rb : RingBuffer) : Use → Prop
  | .write _ | .read _ => True
  | .peek length => length ≤ rb.readableBytes ∨ rb.readableBytes = 0 ∨ rb.isFull = true
  | .view length =>
      length ≤ rb.readableBytes ∧ rb.readPos.toNat + length.toNat ≤ rb.capacity.toNat
  | .advanceRead length => length ≤ rb.readableBytes ∧ ¬(length = 0 ∧ rb.isFull = true)
  | .receive src =>
      src.length ≤ rb.writableBytes.toNat ∧
      rb.writePos.toNat + src.length ≤ rb.capacity.toNat ∧
      ¬(src.length = 0 ∧ rb.readableBytes = 0)

instance (rb : RingBuffer) : DecidablePred rb.Meets
  | .write _ | .read _ => isTrue trivial
  | .peek _ => inferInstanceAs (Decidable (_ ∨ _ ∨ _))
  | .view _ | .advanceRead _ => inferInstanceAs (Decidable (_ ∧ _))
  | .receive _ => inferInstanceAs (Decidable (_ ∧ _ ∧ _))

/-- Every use of the run meets what its state asks for. -/
def MeetsAll (rb : RingBuffer) : List Use → Prop
  | [] => True
  | u :: rest => rb.Meets u ∧
      match rb.use u with
      | .ok (rb', _) => rb'.MeetsAll rest
      | .error _ => False

instance decidableMeetsAll : (uses : List Use) → (rb : RingBuffer) → Decidable (rb.MeetsAll uses)
  | [], _ => isTrue trivial
  | u :: rest, rb =>
      match h : rb.use u with
      | .ok (rb', _) =>
          have := decidableMeetsAll rest rb'
          decidable_of_iff (rb.Meets u ∧ rb'.MeetsAll rest) (by rw [MeetsAll, h])
      | .error _ => isFalse (by rw [MeetsAll, h]; exact fun hmeets => hmeets.2)

/-! ### What the queue does -/

/-- The call of the queue, if the use is one. -/
def Use.toFifo : Use → Option (Fifo.Call UInt8)
  | .write src | .receive src => some (.write src)
  | .read length | .advanceRead length => some (.read length.toNat)
  | .peek _ | .view _ => none

/-- The queue after a use. -/
def Use.after {C : Nat} (q : Fifo UInt8 C) (u : Use) : Fifo UInt8 C :=
  match u.toFifo with
  | some c => (q.call c).1
  | none => q

/-- What a use tells its caller when the buffer holds `q`. -/
def Use.report {C : Nat} (q : Fifo UInt8 C) : Use → Report
  | .write src => .counted (.ofNat (min src.length q.free))
  | .read length | .peek length =>
      .copied (.ofNat (min length.toNat q.items.length)) (q.items.take length.toNat)
  | .view length => .viewed (q.items.take length.toNat)
  | .advanceRead _ | .receive _ => .nothing

/-- What the uses of a run tell. -/
def Use.reports {C : Nat} (q : Fifo UInt8 C) : List Use → List Report
  | [] => []
  | u :: rest => u.report q :: Use.reports (u.after q) rest

variable {rb rb' : RingBuffer} {C : Nat} {q : Fifo UInt8 C}

/-- The queue after a run is the queue after its calls. -/
theorem Use.foldl_after (uses : List Use) :
    ∀ q : Fifo UInt8 C, uses.foldl Use.after q = (q.run (uses.filterMap Use.toFifo)).1 := by
  induction uses with
  | nil => intro q; rfl
  | cons u rest ih =>
      intro q
      rw [List.foldl_cons, ih, Use.after]
      cases hcall : u.toFifo with
      | none => rw [List.filterMap_cons_none hcall]
      | some c => rw [List.filterMap_cons_some hcall]; rfl

/-! ### Access through the pointers -/

/-- A pointer that stays in the storage does not wrap. -/
theorem next_index {pos : UInt64} {n : Nat} (hsize : rb.buffer.size ≤ 0x7FFFFFFFFFFFFFFF)
    (hin : pos.toNat + (n + 1) ≤ rb.buffer.size) : (pos + 1).toNat = pos.toNat + 1 := by
  rw [UInt64.toNat_add, UInt64.toNat_one, Nat.mod_eq_of_lt]
  omega

theorem storeAll_eq (src : List UInt8) :
    ∀ {rb : RingBuffer} {pos : UInt64}, rb.buffer.size ≤ 0x7FFFFFFFFFFFFFFF →
      pos.toNat + src.length ≤ rb.buffer.size →
      rb.storeAll pos src = .ok { rb with buffer := place rb.buffer pos.toNat src } := by
  induction src with
  | nil => intro rb pos _ _; rfl
  | cons byte rest ih =>
      intro rb pos hsize hin
      rw [List.length_cons] at hin
      have hlt : pos.toNat < rb.buffer.size := by omega
      have hnext := next_index hsize hin
      have hstored : (rb.buffer.setIfInBounds pos.toNat byte).size = rb.buffer.size :=
        Array.size_setIfInBounds
      unfold storeAll
      rw [store, if_pos hlt]
      simp only [bind, Except.bind]
      rw [ih (by rwa [hstored]) (by rw [hstored, hnext]; omega), hnext, place,
        Nat.mod_eq_of_lt hlt]

theorem loadAll_eq (n : Nat) :
    ∀ {pos : UInt64}, rb.buffer.size ≤ 0x7FFFFFFFFFFFFFFF → pos.toNat + n ≤ rb.buffer.size →
      rb.loadAll pos n = .ok (slots rb.buffer pos.toNat n) := by
  induction n with
  | zero => intro pos _ _; rfl
  | succ n ih =>
      intro pos hsize hin
      have hlt : pos.toNat < rb.buffer.size := by omega
      have hnext := next_index hsize hin
      have hslot := getElem?_eq_getD (Nat.zero_lt_of_lt hlt) pos.toNat
      rw [Nat.mod_eq_of_lt hlt] at hslot
      have hrest : slots rb.buffer ((pos.toNat + 1) % rb.buffer.size) n
          = slots rb.buffer (pos + 1).toNat n := by
        apply slots_congr
        rw [Nat.mod_mod, hnext]
      unfold loadAll
      rw [load, hslot, slots_succ, Nat.mod_eq_of_lt hlt, hrest]
      simp only [bind, Except.bind]
      rw [ih hsize (by rw [hnext]; omega)]
      rfl

/-! ### One use -/

namespace Represents

/-- As many bytes as there are, up to the length, as the count `size_t` gives. -/
theorem count_eq (h : Represents rb q) {count : UInt64} {n : Nat} (hn : n ≤ C)
    (hcount : count.toNat = n) : count = .ofNat n := by
  rw [← UInt64.toNat_inj, h.toNat_ofNat hn, hcount]

theorem use_write (h : Represents rb q) (src : List UInt8) :
    ∃ rb', rb.use (.write src) = .ok (rb', Use.report q (.write src)) ∧
      Represents rb' (q.write src) := by
  obtain ⟨rb', count, hwrite, hcount, h'⟩ := h.write src
  refine ⟨rb', ?_, h'⟩
  simp only [use, hwrite, bind, Except.bind]
  rw [h.count_eq (by unfold Fifo.free; omega) hcount]
  rfl

theorem use_read (h : Represents rb q) (length : UInt64) :
    ∃ rb', rb.use (.read length) = .ok (rb', Use.report q (.read length)) ∧
      Represents rb' (q.read length.toNat) := by
  have hlen := q.bounded
  obtain ⟨rb', count, hread, hcount, h'⟩ := h.read length
  refine ⟨rb', ?_, h'⟩
  simp only [use, hread, bind, Except.bind]
  rw [h.count_eq (by omega) hcount]
  rfl

/-- Within its bounds `Peek` stops where `Read` does. -/
theorem peek_within (h : Represents rb q) {length : UInt64} (hmeets : rb.Meets (.peek length)) :
    rb.peek length
      = .ok (.ofNat (min length.toNat q.items.length), q.items.take length.toNat) := by
  by_cases hfull : rb.isFull = true
  · exact h.peek_full hfull length
  by_cases hempty : q.items.length = 0
  · rw [h.peek_empty hempty, hempty, Nat.min_zero, List.length_eq_zero_iff.mp hempty,
      List.take_nil]
    rfl
  have hshort : length.toNat ≤ q.items.length := by
    rcases hmeets with hshort | hzero | hset
    · exact h.le_readableBytes.mp hshort
    · exact absurd (h.readableBytes_eq_zero.mp hzero) hempty
    · exact absurd hset hfull
  rw [h.peek_open (by simpa using hfull) (Nat.pos_of_ne_zero hempty), h.take_eq_slots,
    Nat.min_eq_left hshort, UInt64.ofNat_toNat]

theorem use_peek (h : Represents rb q) {length : UInt64} (hmeets : rb.Meets (.peek length)) :
    rb.use (.peek length) = .ok (rb, Use.report q (.peek length)) := by
  simp only [use, h.peek_within hmeets, bind, Except.bind]
  rfl

theorem use_view (h : Represents rb q) (hC : 0 < C) (hfits : C ≤ 0x7FFFFFFFFFFFFFFF)
    {length : UInt64} (hmeets : rb.Meets (.view length)) :
    rb.use (.view length) = .ok (rb, Use.report q (.view length)) := by
  obtain ⟨hlength, hend⟩ := hmeets
  rw [h.le_readableBytes] at hlength
  rw [h.capacity] at hend
  have hptr : rb.readPtr = .ok rb.readPos := if_pos (h.size.symm ▸ h.readPos hC)
  have hbytes : rb.loadAll rb.readPos length.toNat
      = .ok (slots rb.buffer rb.readPos.toNat length.toNat) :=
    loadAll_eq _ (by rw [h.size]; exact hfits) (by rw [h.size]; exact hend)
  simp only [use, hptr, hbytes, bind, Except.bind, Use.report, h.take_eq_slots,
    Nat.min_eq_left hlength]
  rfl

theorem use_advanceRead (h : Represents rb q) (hC : 0 < C) (hfits : C ≤ 0x7FFFFFFFFFFFFFFF)
    {length : UInt64} (hmeets : rb.Meets (.advanceRead length)) :
    ∃ rb', rb.use (.advanceRead length) = .ok (rb', .nothing) ∧
      Represents rb' (q.read length.toNat) := by
  obtain ⟨hlength, hmoves⟩ := hmeets
  have hlen := q.bounded
  have hroom : length.toNat = 0 → q.items.length < C := by
    intro hzero
    by_contra hge
    exact hmoves ⟨UInt64.toNat_inj.mp hzero, h.isFull.mpr ⟨hC, by omega⟩⟩
  obtain ⟨rb', hadvance, h', -⟩ :=
    h.advanceRead hC hfits (h.le_readableBytes.mp hlength) hroom
  refine ⟨rb', ?_, h'⟩
  simp only [use, hadvance, bind, Except.bind]
  rfl

theorem use_receive (h : Represents rb q) (hC : 0 < C) (hfits : C ≤ 0x7FFFFFFFFFFFFFFF)
    {src : List UInt8} (hmeets : rb.Meets (.receive src)) :
    ∃ rb', rb.use (.receive src) = .ok (rb', .nothing) ∧ Represents rb' (q.write src) := by
  obtain ⟨hroom, hend, hmoves⟩ := hmeets
  rw [h.writableBytes] at hroom
  rw [h.capacity] at hend
  have hfree : q.free ≤ C := Nat.sub_le ..
  have hlength : (UInt64.ofNat src.length).toNat = src.length := h.toNat_ofNat (by omega)
  have hsome : (UInt64.ofNat src.length).toNat = 0 → 0 < q.items.length := by
    intro hzero
    apply Nat.pos_of_ne_zero
    intro hempty
    exact hmoves ⟨by rwa [hlength] at hzero, h.readableBytes_eq_zero.mpr hempty⟩
  have hptr : rb.writerPtr = .ok rb.writePos := if_pos (h.size.symm ▸ h.writePos_lt hC)
  have hstored : rb.storeAll rb.writePos src = .ok (rb.placed src) :=
    storeAll_eq src (by rw [h.size]; exact hfits) (by rw [h.size]; exact hend)
  -- what `AdvanceWrite` leaves is what `Write` would have left
  obtain ⟨rb', count, hadvance, hwrite⟩ :=
    h.placed_advanceWrite hC hfits (by rwa [hlength]) hsome hlength.symm
  obtain ⟨rb₁, count₁, hwrite₁, -, h₁⟩ := h.write src
  obtain rfl : rb' = rb₁ := congrArg Prod.fst (Except.ok.inj (hwrite.symm.trans hwrite₁))
  refine ⟨rb', ?_, h₁⟩
  simp only [use, hptr, hstored, hadvance, bind, Except.bind]
  rfl

/-- A use that meets its condition tells what the queue says, and leaves what the queue leaves. -/
theorem use (h : Represents rb q) (hC : 0 < C) (hfits : C ≤ 0x7FFFFFFFFFFFFFFF) {u : Use}
    (hmeets : rb.Meets u) :
    ∃ rb', rb.use u = .ok (rb', u.report q) ∧ Represents rb' (u.after q) := by
  cases u with
  | write src => exact h.use_write src
  | read length => exact h.use_read length
  | peek length => exact ⟨rb, h.use_peek hmeets, h⟩
  | view length => exact ⟨rb, h.use_view hC hfits hmeets, h⟩
  | advanceRead length => exact h.use_advanceRead hC hfits hmeets
  | receive src => exact h.use_receive hC hfits hmeets

end Represents

/-! ### A run -/

theorem useAll_represents (hC : 0 < C) (hfits : C ≤ 0x7FFFFFFFFFFFFFFF) (uses : List Use) :
    ∀ {rb : RingBuffer} {q : Fifo UInt8 C}, Represents rb q → rb.MeetsAll uses →
      ∃ rb', rb.useAll uses = .ok (rb', Use.reports q uses) ∧
        Represents rb' (uses.foldl Use.after q) := by
  induction uses with
  | nil =>
      intro rb q h _
      exact ⟨rb, rfl, h⟩
  | cons u rest ih =>
      intro rb q h hmeets
      obtain ⟨rb₁, huse, h₁⟩ := h.use hC hfits hmeets.1
      rw [MeetsAll, huse] at hmeets
      obtain ⟨rb', hrest, h'⟩ := ih h₁ hmeets.2
      refine ⟨rb', ?_, h'⟩
      unfold useAll
      rw [huse]
      simp only [bind, Except.bind, hrest]
      rfl

/-- **The whole interface refines a bounded queue of bytes.**  A run on a new buffer in which every
use meets its condition goes through.  Each use tells what the queue tells, the buffer holds in the
end what the queue holds, and what was written or received is what was read or passed over and then
what is held. -/
theorem interface_refines_fifo (capacity : UInt64) (hC : 1 ≤ capacity) (rb : RingBuffer)
    (h : construct capacity = .ok rb) (uses : List Use) (hmeets : rb.MeetsAll uses) :
    let calls := uses.filterMap Use.toFifo
    let final := (Fifo.empty : Fifo UInt8 capacity.toNat).run calls
    ∃ rb', rb.useAll uses = .ok (rb', Use.reports (Fifo.empty : Fifo UInt8 capacity.toNat) uses) ∧
      Represents rb' final.1 ∧
      Fifo.accepted calls final.2 = Fifo.delivered final.2 ++ final.1.items := by
  intro calls final
  have hpos : 0 < capacity.toNat := UInt64.le_iff_toNat_le.mp hC
  obtain ⟨hsound, hcap⟩ := construct_sound hC h
  have hfits : capacity.toNat ≤ 0x7FFFFFFFFFFFFFFF := hcap ▸ hsound.toNat_le_maxSize
  obtain ⟨rb', huses, h'⟩ := useAll_represents hpos hfits uses (construct_represents h) hmeets
  rw [Use.foldl_after] at h'
  have hhistory := Fifo.history calls (Fifo.empty : Fifo UInt8 capacity.toNat)
  rw [Fifo.empty_items, List.nil_append] at hhistory
  exact ⟨rb', huses, h', hhistory⟩

/-- A receive, a look ahead, and bytes that wrap around the end. -/
theorem interface_refines_fifo_six :
    ∃ rb', (⟨#[0, 0, 0, 0], 4, 0, 0, false⟩ : RingBuffer).useAll
        [.receive [7, 8, 9], .peek 2, .advanceRead 2, .write [1, 2, 3, 4], .peek 9, .read 3]
      = .ok (rb', [.nothing, .copied 2 [7, 8], .nothing, .counted 3, .copied 4 [9, 1, 2, 3],
          .copied 3 [9, 1, 2]]) ∧ rb'.readableBytes = 1 := by
  obtain ⟨rb', huses, h', -⟩ := interface_refines_fifo 4 (by decide) ⟨#[0, 0, 0, 0], 4, 0, 0, false⟩
    rfl [.receive [7, 8, 9], .peek 2, .advanceRead 2, .write [1, 2, 3, 4], .peek 9, .read 3]
    (by decide)
  refine ⟨rb', huses, ?_⟩
  rw [← UInt64.toNat_inj, h'.readableBytes]
  rfl

end Core.RingBuffer
