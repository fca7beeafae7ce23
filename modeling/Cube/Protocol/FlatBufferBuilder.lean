/-
`FlatBufferBuilder`, as far as the response of the echo handler needs it.

The builder writes from the end of its memory towards the front, so `buf` is the list of bytes from
`cur_` on and grows at its head, and an offset is a distance from the end.  The lower part of the
memory is a scratch pad; it holds the offsets of the vtables written so far and above them the
fields of the table that is open.  Memory is always found.  A failed `FLATBUFFERS_ASSERT` is a
fault, and so is an access outside the bytes that are in use.

`size_` is 32 bits wide and the check of `ensure_space` looks at the size before it grows.
-/
import Cube.Protocol.Flatbuffers

namespace Protocol.Flatbuffers

open Library

/-- How building a buffer stops. -/
inductive BuildFault where
  | assertion
  | access (fault : Fault)
  deriving DecidableEq

/-- `FLATBUFFERS_ASSERT` -/
def assert (condition : Prop) [Decidable condition] : Except BuildFault Unit :=
  if condition then .ok () else .error .assertion

/-- `FlatBufferBuilder::FieldLoc` -/
structure FieldLoc where
  off : Nat
  id : Nat
  deriving DecidableEq

/-- `FlatBufferBuilder` with its `vector_downward`. -/
structure FlatBufferBuilder where
  buf : List UInt8
  vtables : List Nat
  fieldLocs : List FieldLoc
  maxVoffset : Nat
  nested : Bool
  finished : Bool
  minalign : Nat
  deriving DecidableEq

/-- `FLATBUFFERS_MAX_BUFFER_SIZE` -/
def maxBufferSize : Nat := 0x7fffffff

/-- `PaddingBytes(buf_size, scalar_size)` -/
def paddingBytes (bufSize scalarSize : Nat) : Nat :=
  ((~~~UInt64.ofNat bufSize + 1) &&& (UInt64.ofNat scalarSize - 1)).toNat

/-- `FieldIndexToOffset(field_id)` -/
def fieldIndexToOffset (fieldId : Nat) : Nat := 2 * 2 + fieldId * 2

/-- The difference of two `uoffset_t`, which wraps. -/
def uoffsetSub (a b : Nat) : Nat := (a + 0x100000000 - b) % 0x100000000

/-- A read of the runtime, in the builder. -/
def access {α : Type} (x : Except Fault α) : Except BuildFault α := x.mapError BuildFault.access

/-- `WriteScalar<T>(p, t)` for a `T` of this width. -/
def writeScalar (buf : List UInt8) (p : Int) (width n : Nat) : Except BuildFault (List UInt8) :=
  if 0 ≤ p ∧ p + width ≤ buf.length then
    .ok (buf.take p.toNat ++ (toLittleEndian width n ++ buf.drop (p.toNat + width)))
  else .error (.access (.outside p width))

namespace FlatBufferBuilder

/-- A builder as it is constructed. -/
def init : FlatBufferBuilder := ⟨[], [], [], 0, false, false, 1⟩

/-- `GetSize()` -/
def size (b : FlatBufferBuilder) : Nat := b.buf.length % 0x100000000

/-- `buf_.data_at(offset)`, as a position in `buf`. -/
def dataAt (buf : List UInt8) (offset : Nat) : Int := (buf.length : Int) - offset

/-- `buf_.ensure_space(len)` -/
def ensureSpace (b : FlatBufferBuilder) : Except BuildFault Unit := assert (b.size < maxBufferSize)

/-- `buf_.push(bytes, num)`, and `make_space` with what is written there. -/
def push (b : FlatBufferBuilder) (bytes : List UInt8) : Except BuildFault FlatBufferBuilder :=
  if bytes.length = 0 then .ok b
  else do
    b.ensureSpace
    return { b with buf := bytes ++ b.buf }

/-- `buf_.fill(zero_pad_bytes)` -/
def fill (b : FlatBufferBuilder) (zeroPadBytes : Nat) : Except BuildFault FlatBufferBuilder :=
  b.push (List.replicate zeroPadBytes 0)

/-- `TrackMinAlign(elem_size)` -/
def trackMinAlign (b : FlatBufferBuilder) (elemSize : Nat) : FlatBufferBuilder :=
  { b with minalign := max b.minalign elemSize }

/-- `Align(elem_size)` -/
def align (b : FlatBufferBuilder) (elemSize : Nat) : Except BuildFault FlatBufferBuilder :=
  (b.trackMinAlign elemSize).fill (paddingBytes b.size elemSize)

/-- `PreAlign(len, alignment)` -/
def preAlign (b : FlatBufferBuilder) (len alignment : Nat) : Except BuildFault FlatBufferBuilder :=
  if len = 0 then .ok b
  else (b.trackMinAlign alignment).fill (paddingBytes (b.size + len) alignment)

/-- `PushElement(element)`, for an element of this width. -/
def pushElement (b : FlatBufferBuilder) (width element : Nat) :
    Except BuildFault (FlatBufferBuilder × Nat) := do
  let b ← b.align width
  let b ← b.push (toLittleEndian width element)
  return (b, b.size)

/-- `TrackField(field, off)` -/
def trackField (b : FlatBufferBuilder) (field off : Nat) : Except BuildFault FlatBufferBuilder := do
  b.ensureSpace
  return { b with fieldLocs := b.fieldLocs ++ [⟨off, field⟩], maxVoffset := max b.maxVoffset field }

/-- `ReferTo(off)` -/
def referTo (b : FlatBufferBuilder) (off : Nat) : Except BuildFault (FlatBufferBuilder × Nat) := do
  let b ← b.align 4
  assert (off ≠ 0 ∧ off ≤ b.size)
  return (b, (b.size - off + 4) % 0x100000000)

/-- `AddElement<uoffset_t>(field, e, 0)`: the default is not stored. -/
def addElement (b : FlatBufferBuilder) (field e : Nat) : Except BuildFault FlatBufferBuilder :=
  if e = 0 then .ok b
  else do
    let (b, off) ← b.pushElement 4 e
    b.trackField field off

/-- `AddOffset(field, off)` -/
def addOffset (b : FlatBufferBuilder) (field off : Nat) : Except BuildFault FlatBufferBuilder :=
  if off = 0 then .ok b
  else do
    let (b, e) ← b.referTo off
    b.addElement field e

/-- `NotNested()` -/
def notNested (b : FlatBufferBuilder) : Except BuildFault Unit := do
  assert (b.nested = false)
  assert (b.fieldLocs = [])

/-- `StartTable()` -/
def startTable (b : FlatBufferBuilder) : Except BuildFault (FlatBufferBuilder × Nat) := do
  b.notNested
  return ({ b with nested := true }, b.size)

/-- `CreateString(str, len)` -/
def createString (b : FlatBufferBuilder) (str : List UInt8) :
    Except BuildFault (FlatBufferBuilder × Nat) := do
  b.notNested
  let b ← b.preAlign (str.length + 1) 4
  let b ← b.fill 1
  let b ← b.push str
  b.pushElement 4 str.length

/-- The loop of `EndTable` over the fields: the place of each in the table goes to its slot in the
vtable, which is empty before. -/
def writeFields (vtableOffsetLoc : Nat) : List FieldLoc → List UInt8 →
    Except BuildFault (List UInt8)
  | [], buf => .ok buf
  | field :: fields, buf => do
      let slot ← access (readScalar buf field.id 2)
      assert (slot = 0)
      let buf ← writeScalar buf field.id 2 (uoffsetSub vtableOffsetLoc field.off)
      writeFields vtableOffsetLoc fields buf

/-- The loop of `EndTable` over the vtables written so far, for one with the same bytes. -/
def findVtable (buf : List UInt8) (vt1Size : Nat) (vt1 : List UInt8) :
    List Nat → Except BuildFault (Option Nat)
  | [] => .ok none
  | vtOffset :: vtOffsets => do
      let vt2Size ← access (readScalar buf (dataAt buf vtOffset) 2)
      if vt1Size ≠ vt2Size then findVtable buf vt1Size vt1 vtOffsets
      else do
        let vt2 ← access (read buf (dataAt buf vtOffset) vt1Size)
        if vt2 ≠ vt1 then findVtable buf vt1Size vt1 vtOffsets
        else return some vtOffset

/-- `EndTable(start)`, up to the vtable being written at the front of the buffer. -/
def writeVtable (b : FlatBufferBuilder) (start vtableOffsetLoc : Nat) :
    Except BuildFault FlatBufferBuilder := do
  let b := { b with
    maxVoffset := max ((b.maxVoffset + 2) % 0x10000) (fieldIndexToOffset 0) }
  let b ← b.fill b.maxVoffset
  let tableObjectSize := uoffsetSub vtableOffsetLoc start
  assert (tableObjectSize < 0x10000)
  let buf ← writeScalar b.buf 2 2 tableObjectSize
  let buf ← writeScalar buf 0 2 b.maxVoffset
  let buf ← writeFields vtableOffsetLoc b.fieldLocs buf
  return { b with buf := buf, fieldLocs := [], maxVoffset := 0 }

/-- `EndTable(start)`, the vtable to use: the one at the front, or one with the same bytes that was
written before, and then the one at the front goes away. -/
def useVtable (b : FlatBufferBuilder) (vtableOffsetLoc : Nat) :
    Except BuildFault (FlatBufferBuilder × Nat) := do
  let vt1Size ← access (readScalar b.buf 0 2)
  let vt1 ← access (read b.buf 0 vt1Size)
  match ← findVtable b.buf vt1Size vt1 b.vtables with
  | some vtOffset =>
      return ({ b with buf := b.buf.drop (uoffsetSub b.size vtableOffsetLoc) }, vtOffset)
  | none => return (b, b.size)

/-- `EndTable(start)`: a new vtable is remembered. -/
def rememberVtable (b : FlatBufferBuilder) (vtUse : Nat) : Except BuildFault FlatBufferBuilder :=
  if vtUse = b.size then do
    b.ensureSpace
    return { b with vtables := b.vtables ++ [vtUse] }
  else .ok b

/-- `EndTable(start)`, once the vtable is at the front: the start of the table gets the distance to
its vtable. -/
def closeTable (b : FlatBufferBuilder) (vtableOffsetLoc : Nat) :
    Except BuildFault (FlatBufferBuilder × Nat) := do
  let (b, vtUse) ← b.useVtable vtableOffsetLoc
  let b ← b.rememberVtable vtUse
  let buf ← writeScalar b.buf (dataAt b.buf vtableOffsetLoc) 4 (uoffsetSub vtUse vtableOffsetLoc)
  return ({ b with buf := buf, nested := false }, vtableOffsetLoc)

/-- `EndTable(start)` -/
def endTable (b : FlatBufferBuilder) (start : Nat) :
    Except BuildFault (FlatBufferBuilder × Nat) := do
  assert (b.nested = true)
  let (b, vtableOffsetLoc) ← b.pushElement 4 0
  let b ← b.writeVtable start vtableOffsetLoc
  b.closeTable vtableOffsetLoc

/-- `Finish(root)` -/
def finish (b : FlatBufferBuilder) (root : Nat) : Except BuildFault FlatBufferBuilder := do
  assert (b.finished = false)
  b.notNested
  let b := { b with vtables := [] }
  let b ← b.preAlign 4 b.minalign
  let (b, off) ← b.referTo root
  let (b, _) ← b.pushElement 4 off
  return { b with finished := true }

/-- The `GetSize()` bytes at `GetBufferPointer()`: the finished buffer. -/
def getBuffer (b : FlatBufferBuilder) : Except BuildFault (List UInt8) := do
  assert (b.finished = true)
  return b.buf.take b.size

end FlatBufferBuilder

/-! ### Steps that can fail -/

variable {α : Type}

/-- What follows a step that returns if `condition` holds. -/
theorem ite_bind {β : Type} (condition : Prop) [Decidable condition] (x : β) (fault : BuildFault)
    (rest : β → Except BuildFault α) :
    (if condition then Except.ok x else .error fault).bind rest =
      if condition then rest x else .error fault := by
  by_cases h : condition
  · rw [if_pos h, if_pos h]
    rfl
  · rw [if_neg h, if_neg h]
    rfl

theorem ok_bind {β : Type} (x : β) (rest : β → Except BuildFault α) :
    (Except.ok x : Except BuildFault β).bind rest = rest x := rfl

theorem access_eq_ok {x : Except Fault α} {y : α} : access x = .ok y ↔ x = .ok y := by
  cases x with
  | error fault =>
      refine ⟨?_, ?_⟩
      · intro h
        cases h
      · intro h
        cases h
  | ok z =>
      show Except.ok z = Except.ok y ↔ _
      rw [Except.ok.injEq, Except.ok.injEq]

/-- Padding to the width of an offset. -/
theorem paddingBytes_four (n : Nat) : paddingBytes n 4 = (4 - n % 4) % 4 := by
  unfold paddingBytes
  have hmask : (UInt64.ofNat 4 - 1).toNat = 2 ^ 2 - 1 := rfl
  rw [UInt64.toNat_and, hmask, Nat.and_two_pow_sub_one_eq_mod, UInt64.toNat_add, UInt64.toNat_not,
    UInt64.toNat_ofNat']
  have hone : (1 : UInt64).toNat = 1 := rfl
  have hsize : UInt64.size = 18446744073709551616 := rfl
  rw [hone, hsize]
  omega

/-- A scalar is written over as many bytes. -/
theorem writeScalar_append {before xs after : List UInt8} {width n : Nat} {p : Int}
    (hp : p = before.length) (hwidth : xs.length = width) :
    writeScalar (before ++ (xs ++ after)) p width n
      = .ok (before ++ (toLittleEndian width n ++ after)) := by
  unfold writeScalar
  have hpos : p.toNat = before.length := by omega
  have hafter : (before ++ (xs ++ after)).drop (before.length + width) = after := by
    rw [← hwidth, ← List.drop_drop, List.drop_left, List.drop_left]
  rw [if_pos ⟨by omega, by simp only [List.length_append]; omega⟩, hpos, List.take_left, hafter]

/-- A scalar is read from where it lies. -/
theorem access_readScalar {buf xs : List UInt8} {p : Int} {width : Nat} (hwidth : xs.length = width)
    (h : LiesAt buf p xs) : access (readScalar buf p width) = .ok (littleEndian xs) := by
  rw [readScalar_eq_ok.mpr ⟨xs, hwidth, h, rfl⟩]
  rfl

/-- Bytes are read from where they lie. -/
theorem access_read {buf xs : List UInt8} {p : Int} {width : Nat} (hwidth : xs.length = width)
    (h : LiesAt buf p xs) : access (read buf p width) = .ok xs := by
  rw [read_eq_ok.mpr ⟨hwidth, h⟩]
  rfl

namespace FlatBufferBuilder

variable {b : FlatBufferBuilder}

/-- The builder with these bytes before the others. -/
def grow (b : FlatBufferBuilder) (bytes : List UInt8) : FlatBufferBuilder :=
  { b with buf := bytes ++ b.buf }

theorem push_eq (bytes : List UInt8) :
    b.push bytes =
      if bytes.length = 0 ∨ b.size < maxBufferSize then .ok (b.grow bytes)
      else .error .assertion := by
  unfold push ensureSpace assert
  by_cases hnone : bytes.length = 0
  · rw [if_pos hnone, if_pos (.inl hnone), grow, List.length_eq_zero_iff.mp hnone]
    rfl
  · rw [if_neg hnone]
    simp only [bind, ite_bind, hnone, false_or]
    rfl

/-- As long as the size has not wrapped, the finished buffer is what was written. -/
theorem getBuffer_eq (hfinished : b.finished = true) (hsmall : b.buf.length < 0x100000000) :
    b.getBuffer = .ok b.buf := by
  unfold getBuffer assert
  rw [if_pos hfinished, size, Nat.mod_eq_of_lt hsmall, List.take_length]
  rfl

/-- In any case it has no more bytes than `GetSize()`. -/
theorem getBuffer_length {bytes : List UInt8} (h : b.getBuffer = .ok bytes) :
    bytes.length ≤ b.size := by
  unfold getBuffer assert at h
  simp only [bind, ite_bind] at h
  by_cases hfinished : b.finished = true
  · rw [if_pos hfinished] at h
    cases h
    rw [List.length_take]
    omega
  · rw [if_neg hfinished] at h
    cases h

end FlatBufferBuilder

end Protocol.Flatbuffers
