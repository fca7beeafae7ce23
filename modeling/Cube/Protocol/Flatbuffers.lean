/-
The reading side of the flatbuffers runtime, as far as an `EchoRequest` needs it.

A buffer is a list of bytes and a pointer into it is its distance from the first byte.  Offsets are
added as they are found; the accessors check nothing.  A read that does not lie in the buffer and a
read through a null pointer are faults of the process.
-/
import Cube.Library.Bytes

namespace Protocol.Flatbuffers

open Library

/-- How a read brings the process down. -/
inductive Fault where
  | outside (pos : Int) (length : Nat)   -- these bytes are not all in the buffer
  | nullPointer
  deriving DecidableEq

/-- The `length` bytes at `p`. -/
def read (buf : List UInt8) (p : Int) (length : Nat) : Except Fault (List UInt8) :=
  match slice buf p length with
  | some xs => .ok xs
  | none => .error (.outside p length)

/-- `ReadScalar<T>(p)` for an unsigned `T` of this width. -/
def readScalar (buf : List UInt8) (p : Int) (width : Nat) : Except Fault Nat := do
  let xs ← read buf p width
  return littleEndian xs

/-- `soffset_t`, which is signed, of these bits. -/
def soffset (n : Nat) : Int := (n : Int).bmod 0x100000000

/-- `GetRoot<T>(buf)` -/
def getRoot (buf : List UInt8) : Except Fault Int := do
  let offset ← readScalar buf 0 4
  return offset

/-- `Table::GetVTable()` -/
def getVTable (buf : List UInt8) (table : Int) : Except Fault Int := do
  let offset ← readScalar buf table 4
  return table - soffset offset

/-- `Table::GetOptionalFieldOffset(field)` -/
def getOptionalFieldOffset (buf : List UInt8) (table : Int) (field : Nat) : Except Fault Nat := do
  let vtable ← getVTable buf table
  let vtsize ← readScalar buf vtable 2
  if field < vtsize then readScalar buf (vtable + field) 2 else return 0

/-- `Table::GetPointer<P>(field)`, with `none` for `nullptr`. -/
def getPointer (buf : List UInt8) (table : Int) (field : Nat) : Except Fault (Option Int) := do
  let fieldOffset ← getOptionalFieldOffset buf table field
  if fieldOffset ≠ 0 then do
    let offset ← readScalar buf (table + fieldOffset) 4
    return some (table + fieldOffset + offset)
  else return none

/-- `String::str()` -/
def str (buf : List UInt8) (string : Int) : Except Fault (List UInt8) := do
  let size ← readScalar buf string 4
  read buf (string + 4) size

/-! ### What a read that returns has found -/

theorem bind_eq_ok {ε α β : Type} {x : Except ε α} {f : α → Except ε β} {b : β} :
    x.bind f = .ok b ↔ ∃ a, x = .ok a ∧ f a = .ok b := by
  cases x with
  | error fault =>
      refine ⟨?_, ?_⟩
      · intro h
        cases h
      · intro h
        obtain ⟨a, hx, _⟩ := h
        cases hx
  | ok a =>
      refine ⟨fun h => ⟨a, rfl, h⟩, ?_⟩
      intro h
      obtain ⟨a', hx, hf⟩ := h
      rw [Except.ok.inj hx]
      exact hf

variable {buf : List UInt8}

theorem read_eq_ok {p : Int} {length : Nat} {xs : List UInt8} :
    read buf p length = .ok xs ↔ xs.length = length ∧ LiesAt buf p xs := by
  rw [← slice_eq_some]
  unfold read
  cases slice buf p length with
  | none => simp
  | some ys => simp

theorem readScalar_eq_ok {p : Int} {width n : Nat} :
    readScalar buf p width = .ok n ↔ NumberAt buf p width n := by
  unfold readScalar
  simp only [bind, bind_eq_ok, read_eq_ok, pure, Except.pure, Except.ok.injEq]
  unfold NumberAt
  simp only [and_assoc]

theorem getRoot_eq_ok {table : Int} :
    getRoot buf = .ok table ↔ ∃ n : Nat, NumberAt buf 0 4 n ∧ (n : Int) = table := by
  unfold getRoot
  simp only [bind, bind_eq_ok, readScalar_eq_ok, pure, Except.pure, Except.ok.injEq]

theorem getVTable_eq_ok {table vtable : Int} :
    getVTable buf table = .ok vtable ↔
      ∃ n, NumberAt buf table 4 n ∧ table - soffset n = vtable := by
  unfold getVTable
  simp only [bind, bind_eq_ok, readScalar_eq_ok, pure, Except.pure, Except.ok.injEq]

/-- A field is present if its slot is in the vtable and not zero. -/
theorem getOptionalFieldOffset_eq_ok {table : Int} {field offset : Nat} (hset : offset ≠ 0) :
    getOptionalFieldOffset buf table field = .ok offset ↔
      ∃ back vtsize, NumberAt buf table 4 back ∧
        NumberAt buf (table - soffset back) 2 vtsize ∧ field < vtsize ∧
          NumberAt buf (table - soffset back + field) 2 offset := by
  unfold getOptionalFieldOffset
  simp only [bind, bind_eq_ok, getVTable_eq_ok, readScalar_eq_ok]
  refine ⟨?_, ?_⟩
  · intro h
    obtain ⟨vtable, ⟨back, hback, rfl⟩, vtsize, hsize, hslot⟩ := h
    by_cases hfield : field < vtsize
    · rw [if_pos hfield] at hslot
      exact ⟨back, vtsize, hback, hsize, hfield, readScalar_eq_ok.mp hslot⟩
    · rw [if_neg hfield] at hslot
      exact absurd (Except.ok.inj hslot).symm hset
  · intro h
    obtain ⟨back, vtsize, hback, hsize, hfield, hslot⟩ := h
    refine ⟨_, ⟨back, hback, rfl⟩, vtsize, hsize, ?_⟩
    rw [if_pos hfield]
    exact readScalar_eq_ok.mpr hslot

theorem getPointer_eq_ok {table string : Int} {field : Nat} :
    getPointer buf table field = .ok (some string) ↔
      ∃ fieldOffset offset, fieldOffset ≠ 0 ∧
        getOptionalFieldOffset buf table field = .ok fieldOffset ∧
          NumberAt buf (table + fieldOffset) 4 offset ∧
            table + fieldOffset + offset = string := by
  unfold getPointer
  simp only [bind, bind_eq_ok]
  refine ⟨?_, ?_⟩
  · intro h
    obtain ⟨fieldOffset, hoffset, hpointer⟩ := h
    by_cases hset : fieldOffset ≠ 0
    · rw [if_pos hset] at hpointer
      obtain ⟨offset, hread, hsome⟩ := bind_eq_ok.mp hpointer
      exact ⟨fieldOffset, offset, hset, hoffset, readScalar_eq_ok.mp hread,
        Option.some.inj (Except.ok.inj hsome)⟩
    · rw [if_neg hset] at hpointer
      cases hpointer
  · intro h
    obtain ⟨fieldOffset, offset, hset, hoffset, hread, rfl⟩ := h
    refine ⟨fieldOffset, hoffset, ?_⟩
    rw [if_pos hset]
    exact bind_eq_ok.mpr ⟨offset, readScalar_eq_ok.mpr hread, rfl⟩

theorem str_eq_ok {string : Int} {text : List UInt8} :
    str buf string = .ok text ↔
      NumberAt buf string 4 text.length ∧ LiesAt buf (string + 4) text := by
  unfold str
  simp only [bind, bind_eq_ok, readScalar_eq_ok, read_eq_ok]
  refine ⟨?_, ?_⟩
  · intro h
    obtain ⟨size, hsize, rfl, htext⟩ := h
    exact ⟨hsize, htext⟩
  · intro h
    exact ⟨text.length, h.1, rfl, h.2⟩

end Protocol.Flatbuffers
