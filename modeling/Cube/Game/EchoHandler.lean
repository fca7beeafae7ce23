/-
`EchoHandler`, on whatever a client put in the packet.

The handler that `CreateEchoHandler` returns follows the offsets it finds in the payload, and does
not look at `size`.  With the text it has found it builds a response, which it does not send.

`readMessage` is what any reader of the two tables does, the handler included: a request and a
response both have their message in the first place.  `HoldsMessage` is the layout of such a table
with its message, with every piece inside the buffer, and these are exactly the buffers that a
message can be read from.
-/
import Cube.Protocol.FlatBufferBuilder
import Cube.Game.HandlerManager

namespace Game

open Library Core Protocol Protocol.Flatbuffers

/-- `EchoRequest::VT_MESSAGE`: the place of the first field in a vtable. -/
def EchoRequest.VT_MESSAGE : Nat := 4

/-- `EchoRequest::message()` -/
def EchoRequest.message (payload : List UInt8) (request : Int) : Except Fault (Option Int) :=
  getPointer payload request EchoRequest.VT_MESSAGE

/-- `EchoResponse::VT_MESSAGE` -/
def EchoResponse.VT_MESSAGE : Nat := 4

/-- `CreateEchoResponse(_fbb, message)` -/
def createEchoResponse (fbb : FlatBufferBuilder) (message : Nat) :
    Except BuildFault (FlatBufferBuilder × Nat) := do
  let (fbb, start) ← fbb.startTable
  let fbb ← fbb.addOffset EchoResponse.VT_MESSAGE message
  fbb.endTable start

/-- `EchoHandler::Handle(session, request)`, once the text of the request has been copied. -/
def EchoHandler.respond (text : List UInt8) : Except BuildFault FlatBufferBuilder := do
  let (builder, messageOffset) ← FlatBufferBuilder.init.createString text
  let (builder, echoResponse) ← createEchoResponse builder messageOffset
  builder.finish echoResponse

/-- `EchoHandler::Handle(session, request)`, for a request in the payload.  The response is built
and not sent. -/
def EchoHandler.handle (_ : Session) (payload : List UInt8) (request : Int) :
    Except BuildFault FlatBufferBuilder := do
  match ← access (EchoRequest.message payload request) with
  | none => .error (.access .nullPointer)
  | some message =>
      let text ← access (str payload message)
      EchoHandler.respond text

/-- `using HandlerFunction = std::function<void(core::ISession&, const uint8_t*, size_t)>` -/
abbrev HandlerFunction : Type :=
  Session → List UInt8 → UInt64 → Except BuildFault FlatBufferBuilder

/-- `HandlerFactory::CreateEchoHandler()` -/
def createEchoHandler : HandlerFunction := fun session payload _ => do
  let request ← access (getRoot payload)
  EchoHandler.handle session payload request

/-- What the invocation of a handler does. -/
def HandlerManager.Invocation.run (inv : HandlerManager.Invocation HandlerFunction) :
    Except BuildFault FlatBufferBuilder := inv.handler inv.session inv.payload inv.size

/-! ### The message -/

/-- `GetRoot<T>(buf)->message()->str()`, for a request or a response. -/
def readMessage (buf : List UInt8) : Except Fault (List UInt8) := do
  let table ← getRoot buf
  match ← EchoRequest.message buf table with
  | none => .error .nullPointer
  | some message => str buf message

/-- The handler reads the message and responds to it. -/
theorem createEchoHandler_eq (session : Session) (payload : List UInt8) (size : UInt64) :
    createEchoHandler session payload size
      = (access (readMessage payload)).bind EchoHandler.respond := by
  unfold createEchoHandler EchoHandler.handle readMessage
  simp only [bind]
  cases getRoot payload with
  | error fault => rfl
  | ok request =>
      show (access (EchoRequest.message payload request)).bind _ = (access
        ((EchoRequest.message payload request).bind _)).bind _
      cases EchoRequest.message payload request with
      | error fault => rfl
      | ok pointer => cases pointer <;> rfl

/-- A table with this message lies in the buffer: at the start the distance to the table, at the
table the distance back to its vtable, there its size and a slot for the message, at the slot's
distance from the table the distance to a string, and there its length and its bytes. -/
inductive HoldsMessage (payload message : List UInt8) : Prop where
  | intro (table back vtsize slot offset : Nat)
      (root : NumberAt payload 0 4 table)
      (vtable : NumberAt payload table 4 back)
      (size : NumberAt payload (table - soffset back) 2 vtsize)
      (inside : EchoRequest.VT_MESSAGE < vtsize)
      (present : slot ≠ 0)
      (field : NumberAt payload (table - soffset back + EchoRequest.VT_MESSAGE) 2 slot)
      (string : NumberAt payload (table + slot) 4 offset)
      (length : NumberAt payload (table + slot + offset) 4 message.length)
      (text : LiesAt payload (table + slot + offset + 4) message)

/-- The message lies in the buffer, behind its length. -/
theorem HoldsMessage.lies {payload message : List UInt8} (h : HoldsMessage payload message) :
    ∃ pos, 4 ≤ pos ∧ LiesAt payload pos message := by
  obtain ⟨_, _, _, _, _, _, _, _, _, _, _, _, _, htext⟩ := h
  exact ⟨_, by omega, htext⟩

/-- **The buffers a message is read from.** -/
theorem readMessage_eq_ok {buf text : List UInt8} :
    readMessage buf = .ok text ↔ HoldsMessage buf text := by
  unfold readMessage
  simp only [bind, bind_eq_ok, getRoot_eq_ok]
  refine ⟨?_, ?_⟩
  · intro h
    obtain ⟨_, ⟨table, hroot, rfl⟩, pointer, hpointer, hrest⟩ := h
    cases pointer with
    | none => cases hrest
    | some message =>
        obtain ⟨hlength, htext⟩ := str_eq_ok.mp hrest
        obtain ⟨slot, offset, hpresent, hslot, hstring, rfl⟩ := getPointer_eq_ok.mp hpointer
        obtain ⟨back, vtsize, hback, hsize, hinside, hfield⟩ :=
          (getOptionalFieldOffset_eq_ok hpresent).mp hslot
        exact ⟨table, back, vtsize, slot, offset, hroot, hback, hsize, hinside, hpresent, hfield,
          hstring, hlength, htext⟩
  · intro h
    obtain ⟨table, back, vtsize, slot, offset, hroot, hback, hsize, hinside, hpresent, hfield,
      hstring, hlength, htext⟩ := h
    refine ⟨table, ⟨table, hroot, rfl⟩, some _, ?_, str_eq_ok.mpr ⟨hlength, htext⟩⟩
    exact getPointer_eq_ok.mpr ⟨slot, offset, hpresent,
      (getOptionalFieldOffset_eq_ok hpresent).mpr ⟨back, vtsize, hback, hsize, hinside, hfield⟩,
      hstring, rfl⟩

end Game
