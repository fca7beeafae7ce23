/-
`RingBuffer`.

A buffer of `_capacity` bytes with a read position, a write position and a flag.  When the positions
coincide the buffer is either empty or full, and `_isFull` says which.  Positions and lengths are
`size_t`, with its wrapping arithmetic.

An access outside the storage and a remainder by zero are undefined in the source.  Here they are
errors, so that a call that returns has made none.
-/
namespace Core

/-- Why a call does not return. -/
inductive RingBuffer.Error where
  | lengthError                 -- thrown by the vector's constructor
  | outOfBounds (pos : UInt64)  -- `_buffer[pos]` outside the vector
  | divisionByZero
  deriving DecidableEq

structure RingBuffer where
  buffer : Array UInt8
  capacity : UInt64
  readPos : UInt64
  writePos : UInt64
  isFull : Bool
  deriving DecidableEq

namespace RingBuffer

/-- `max_size()` of a `std::vector<uint8_t>`, which is `PTRDIFF_MAX`. -/
def maxSize : UInt64 := 0x7FFFFFFFFFFFFFFF

/-- `RingBuffer(capacity)`: the vector has `capacity` zero bytes, or its constructor throws. -/
def construct (capacity : UInt64) : Except Error RingBuffer :=
  if capacity ≤ maxSize then
    .ok { buffer := Array.replicate capacity.toNat 0
          capacity := capacity
          readPos := 0
          writePos := 0
          isFull := false }
  else .error .lengthError

/-- `ReadableBytes()` -/
def readableBytes (rb : RingBuffer) : UInt64 :=
  if rb.isFull then rb.capacity
  else if rb.writePos ≥ rb.readPos then rb.writePos - rb.readPos
  else rb.capacity - rb.readPos + rb.writePos

/-- `WritableBytes()` -/
def writableBytes (rb : RingBuffer) : UInt64 := rb.capacity - rb.readableBytes

/-- `_buffer[pos]`, read. -/
def load (rb : RingBuffer) (pos : UInt64) : Except Error UInt8 :=
  match rb.buffer[pos.toNat]? with
  | some byte => .ok byte
  | none => .error (.outOfBounds pos)

/-- `_buffer[pos] = byte`, as the new storage. -/
def store (rb : RingBuffer) (pos : UInt64) (byte : UInt8) : Except Error (Array UInt8) :=
  if pos.toNat < rb.buffer.size then .ok (rb.buffer.setIfInBounds pos.toNat byte)
  else .error (.outOfBounds pos)

/-- `(pos + length) % _capacity` -/
def wrap (rb : RingBuffer) (pos length : UInt64) : Except Error UInt64 :=
  if rb.capacity = 0 then .error .divisionByZero else .ok ((pos + length) % rb.capacity)

/-! ### `Write` -/

/-- The body of the loop in `Write`, for the byte `src[written]`. -/
def writeByte (rb : RingBuffer) (byte : UInt8) : Except Error RingBuffer := do
  let buffer ← rb.store rb.writePos byte
  let writePos ← rb.wrap rb.writePos 1
  return { rb with
    buffer := buffer
    writePos := writePos
    isFull := if writePos = rb.readPos then true else rb.isFull }

/-- The loop in `Write`; the list is `src` from `written` on, up to `length`. -/
def writeLoop (rb : RingBuffer) (written : UInt64) :
    List UInt8 → Except Error (RingBuffer × UInt64)
  | [] => .ok (rb, written)
  | byte :: rest =>
      if rb.writableBytes > 0 then do
        let rb' ← rb.writeByte byte
        rb'.writeLoop (written + 1) rest
      else .ok (rb, written)

/-- `Write(src, length)`, where `src` is the `length` bytes. -/
def write (rb : RingBuffer) (src : List UInt8) : Except Error (RingBuffer × UInt64) :=
  rb.writeLoop 0 src

/-! ### `Read` -/

/-- The body of the loop in `Read`, with the byte that goes to `dest[read]`. -/
def readByte (rb : RingBuffer) : Except Error (RingBuffer × UInt8) := do
  let byte ← rb.load rb.readPos
  let readPos ← rb.wrap rb.readPos 1
  return ({ rb with readPos := readPos, isFull := false }, byte)

/-- The loop in `Read`; `dest` is what has been stored, the number is `length - read`. -/
def readLoop (rb : RingBuffer) (read : UInt64) (dest : List UInt8) :
    Nat → Except Error (RingBuffer × UInt64 × List UInt8)
  | 0 => .ok (rb, read, dest)
  | remaining + 1 =>
      if rb.readableBytes > 0 then do
        let (rb', byte) ← rb.readByte
        rb'.readLoop (read + 1) (dest ++ [byte]) remaining
      else .ok (rb, read, dest)

/-- `Read(dest, length)`: the buffer afterwards, the count returned, the bytes stored. -/
def read (rb : RingBuffer) (length : UInt64) : Except Error (RingBuffer × UInt64 × List UInt8) :=
  rb.readLoop 0 [] length.toNat

/-! ### `Peek` and the two `Advance`s -/

/-- The loop in `Peek`; `pos` is its own cursor, the number is `length - peek`. -/
def peekLoop (rb : RingBuffer) (pos peek : UInt64) (dest : List UInt8) :
    Nat → Except Error (UInt64 × List UInt8)
  | 0 => .ok (peek, dest)
  | remaining + 1 =>
      if rb.readableBytes > 0 then do
        let byte ← rb.load pos
        let pos' ← rb.wrap pos 1
        if pos' = rb.writePos ∧ rb.isFull then .ok (peek + 1, dest ++ [byte])
        else rb.peekLoop pos' (peek + 1) (dest ++ [byte]) remaining
      else .ok (peek, dest)

/-- `Peek(dest, length)`: the count returned and the bytes stored. -/
def peek (rb : RingBuffer) (length : UInt64) : Except Error (UInt64 × List UInt8) :=
  rb.peekLoop rb.readPos 0 [] length.toNat

/-- `AdvanceRead(length)` -/
def advanceRead (rb : RingBuffer) (length : UInt64) : Except Error RingBuffer := do
  let readPos ← rb.wrap rb.readPos length
  return { rb with readPos := readPos, isFull := false }

/-- `AdvanceWrite(length)` -/
def advanceWrite (rb : RingBuffer) (length : UInt64) : Except Error RingBuffer := do
  let writePos ← rb.wrap rb.writePos length
  return { rb with
    writePos := writePos
    isFull := if writePos = rb.readPos then true else rb.isFull }

/-! ### `WriterPtr` and `ReadPtr` -/

/-- `&_buffer[pos]`, as the index it points to. -/
def address (rb : RingBuffer) (pos : UInt64) : Except Error UInt64 :=
  if pos.toNat < rb.buffer.size then .ok pos else .error (.outOfBounds pos)

/-- `WriterPtr()` -/
def writerPtr (rb : RingBuffer) : Except Error UInt64 := rb.address rb.writePos

/-- `ReadPtr()` -/
def readPtr (rb : RingBuffer) : Except Error UInt64 := rb.address rb.readPos

/-! ### Sequences of calls -/

/-- A call of `Write` or of `Read`. -/
inductive Call where
  | write (src : List UInt8)
  | read (length : UInt64)

/-- What the call gives its caller: the count, and for `Read` the bytes stored in `dest`. -/
inductive Outcome where
  | written (count : UInt64)
  | read (count : UInt64) (dest : List UInt8)
  deriving DecidableEq

def call (rb : RingBuffer) : Call → Except Error (RingBuffer × Outcome)
  | .write src => do
      let (rb', count) ← rb.write src
      return (rb', .written count)
  | .read length => do
      let (rb', count, dest) ← rb.read length
      return (rb', .read count dest)

/-- One call after the other. -/
def run (rb : RingBuffer) : List Call → Except Error (RingBuffer × List Outcome)
  | [] => .ok (rb, [])
  | c :: rest => do
      let (rb', out) ← rb.call c
      let (rb'', outs) ← rb'.run rest
      return (rb'', out :: outs)

/-- A call of any of the five members that move bytes or positions. -/
inductive Operation where
  | write (src : List UInt8)
  | read (length : UInt64)
  | peek (length : UInt64)
  | advanceRead (length : UInt64)
  | advanceWrite (length : UInt64)

/-- The buffer after the call. -/
def perform (rb : RingBuffer) : Operation → Except Error RingBuffer
  | .write src => do
      let (rb', _) ← rb.write src
      return rb'
  | .read length => do
      let (rb', _, _) ← rb.read length
      return rb'
  | .peek length => do
      let _ ← rb.peek length
      return rb
  | .advanceRead length => rb.advanceRead length
  | .advanceWrite length => rb.advanceWrite length

/-- One operation after the other. -/
def performAll (rb : RingBuffer) : List Operation → Except Error RingBuffer
  | [] => .ok rb
  | op :: rest => do
      let rb' ← rb.perform op
      rb'.performAll rest

end RingBuffer

end Core
