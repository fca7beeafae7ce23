/-
Which payloads the echo handler survives, and what it makes of them.

Two things can go wrong.  The handler may leave the payload while it looks for the message, and the
response may be too long for the builder, which fails an assertion.  A text so long that the 32 bits
of the size wrap passes every assertion, but then the finished buffer is shorter than the text.  So
a payload is echoed exactly if it holds a request with a message of up to two gigabytes less 25
bytes.
-/
import Cube.Game.EchoResponse

namespace Game

open Library Core Protocol Protocol.Flatbuffers

/-- The payload holds a request with this text, and the response that was built to it has the same
text. -/
structure Echoes (payload : List UInt8) (response : Except BuildFault FlatBufferBuilder)
    (text : List UInt8) : Prop where
  request : readMessage payload = .ok text
  response : ∃ builder bytes, response = .ok builder ∧ builder.getBuffer = .ok bytes ∧
    readMessage bytes = .ok text

/-- The handler reads nothing outside the payload and nothing through a null pointer, and builds the
response for a message that lies in the payload. -/
def EchoSafe (session : Session) (payload : List UInt8) : Prop :=
  ∃ text pos, LiesAt payload pos text ∧
    Echoes payload (createEchoHandler session payload (.ofNat payload.length)) text

/-! ### The response -/

/-- Whatever is built, the finished buffer is not much over the limit. -/
theorem respond_length {text bytes : List UInt8} {builder : FlatBufferBuilder}
    (h : EchoHandler.respond text = .ok builder) (hbuffer : builder.getBuffer = .ok bytes) :
    bytes.length < maxBufferSize + 4 := by
  unfold EchoHandler.respond at h
  simp only [bind, bind_eq_ok] at h
  obtain ⟨⟨_, _⟩, -, ⟨_, _⟩, -, hfinish⟩ := h
  have hsize := FlatBufferBuilder.finish_size hfinish
  have hlength := FlatBufferBuilder.getBuffer_length hbuffer
  omega

/-- The response to a text has this text exactly if it is not too long. -/
theorem respond_iff (text : List UInt8) :
    (∃ builder bytes, EchoHandler.respond text = .ok builder ∧ builder.getBuffer = .ok bytes ∧
      readMessage bytes = .ok text) ↔ text.length ≤ 0x7fffffe7 := by
  refine ⟨?_, ?_⟩
  · intro h
    obtain ⟨builder, bytes, hrespond, hbuffer, hread⟩ := h
    by_cases hshort : text.length < 0xfffffffc
    · have hbuilt := respond_eq hshort
      rw [hrespond, ok_bind, hbuffer] at hbuilt
      by_contra hlong
      rw [if_neg hlong] at hbuilt
      cases hbuilt
    · -- the size has wrapped, and the text does not fit into the buffer
      obtain ⟨_, _, htext⟩ := (readMessage_eq_ok.mp hread).lies
      have hle := htext.le
      have hlength := respond_length hrespond hbuffer
      unfold maxBufferSize at hlength
      omega
  · intro hfits
    have hbuilt := @respond_eq text (by omega)
    rw [if_pos hfits, bind_eq_ok] at hbuilt
    obtain ⟨builder, hrespond, hbuffer⟩ := hbuilt
    exact ⟨builder, _, hrespond, hbuffer, readMessage_eq_ok.mpr (responseBytes_holds hfits)⟩

/-- **What the handler echoes.** -/
theorem echoes_iff {session : Session} {payload text : List UInt8} {size : UInt64} :
    Echoes payload (createEchoHandler session payload size) text ↔
      HoldsMessage payload text ∧ text.length ≤ 0x7fffffe7 := by
  have hhandler : readMessage payload = .ok text →
      createEchoHandler session payload size = EchoHandler.respond text := by
    intro hread
    rw [createEchoHandler_eq, access_eq_ok.mpr hread]
    rfl
  refine ⟨?_, ?_⟩
  · intro h
    have hresponse := h.response
    rw [hhandler h.request] at hresponse
    exact ⟨readMessage_eq_ok.mp h.request, (respond_iff text).mp hresponse⟩
  · intro h
    have hread := readMessage_eq_ok.mpr h.1
    refine ⟨hread, ?_⟩
    rw [hhandler hread]
    exact (respond_iff text).mpr h.2

/-- **Every request that can be read is answered with its message**: up to two gigabytes less 25
bytes of text the response is built, and a reader gets the same text from it, the handler included;
a longer text fails an assertion of the builder. -/
theorem echo_answered (session : Session) (payload text : List UInt8) (size : UInt64)
    (hpayload : payload.length < 0x100000000) (hread : readMessage payload = .ok text) :
    (createEchoHandler session payload size).bind FlatBufferBuilder.getBuffer =
        (if text.length ≤ 0x7fffffe7 then .ok (responseBytes text) else .error .assertion) ∧
      (text.length ≤ 0x7fffffe7 → readMessage (responseBytes text) = .ok text ∧
        ∀ reader size', (createEchoHandler reader (responseBytes text) size').bind
          FlatBufferBuilder.getBuffer = .ok (responseBytes text)) := by
  have hshort : text.length < 0xfffffffc := by
    obtain ⟨_, hpos, htext⟩ := (readMessage_eq_ok.mp hread).lies
    have hle := htext.le
    omega
  have hhandler : ∀ payload' session' size', readMessage payload' = .ok text →
      (createEchoHandler session' payload' size').bind FlatBufferBuilder.getBuffer
        = (EchoHandler.respond text).bind FlatBufferBuilder.getBuffer := by
    intro payload' session' size' hread'
    rw [createEchoHandler_eq, access_eq_ok.mpr hread']
    rfl
  refine ⟨(hhandler payload session size hread).trans (respond_eq hshort), ?_⟩
  intro hfits
  have hagain := readMessage_eq_ok.mpr (responseBytes_holds hfits)
  refine ⟨hagain, ?_⟩
  intro reader size'
  rw [hhandler _ reader size' hagain, respond_eq hshort, if_pos hfits]

/-- The request with the message "hi" and the 28 bytes of its response. -/
theorem echo_answered_hi :
    (createEchoHandler ⟨1, 7⟩
        [12, 0, 0, 0, 0, 0, 6, 0, 8, 0, 4, 0, 6, 0, 0, 0, 4, 0, 0, 0, 2, 0, 0, 0, 104, 105, 0, 0]
        28).bind FlatBufferBuilder.getBuffer = .ok (responseBytes [104, 105]) ∧
      responseBytes [104, 105] =
        [12, 0, 0, 0, 0, 0, 6, 0, 8, 0, 4, 0, 6, 0, 0, 0, 4, 0, 0, 0, 2, 0, 0, 0, 104, 105, 0, 0] :=
  ⟨(echo_answered ⟨1, 7⟩
    [12, 0, 0, 0, 0, 0, 6, 0, 8, 0, 4, 0, 6, 0, 0, 0, 4, 0, 0, 0, 2, 0, 0, 0, 104, 105, 0, 0]
    [104, 105] 28 (by decide) (by decide)).1, by decide⟩

/-! ### Safety -/

/-- **When the echo handler is safe**: exactly on the payloads that hold a request with its message,
and with one that is not too long. -/
theorem echoSafe_iff (session : Session) (payload : List UInt8) :
    EchoSafe session payload ↔
      ∃ message, HoldsMessage payload message ∧ message.length ≤ 0x7fffffe7 := by
  refine ⟨?_, ?_⟩
  · intro hsafe
    obtain ⟨text, _, _, hechoes⟩ := hsafe
    exact ⟨text, echoes_iff.mp hechoes⟩
  · intro h
    obtain ⟨message, hholds, hfits⟩ := h
    obtain ⟨pos, _, htext⟩ := hholds.lies
    exact ⟨message, pos, htext, echoes_iff.mpr ⟨hholds, hfits⟩⟩

/-- An empty payload, and a well-formed request that leaves its message out. -/
theorem echo_faults :
    createEchoHandler ⟨1, 7⟩ [] 0 = .error (.access (.outside 0 4)) ∧
      createEchoHandler ⟨1, 7⟩ [8, 0, 0, 0, 4, 0, 4, 0, 4, 0, 0, 0] 12
        = .error (.access .nullPointer) ∧
      ¬EchoSafe ⟨1, 7⟩ [] ∧ ¬EchoSafe ⟨1, 7⟩ [8, 0, 0, 0, 4, 0, 4, 0, 4, 0, 0, 0] := by
  have hempty : readMessage [] = .error (.outside 0 4) := by decide
  have hmissing : readMessage [8, 0, 0, 0, 4, 0, 4, 0, 4, 0, 0, 0] = .error .nullPointer := by
    decide
  refine ⟨?_, ?_, ?_, ?_⟩
  · rw [createEchoHandler_eq, hempty]
    rfl
  · rw [createEchoHandler_eq, hmissing]
    rfl
  · intro hsafe
    obtain ⟨_, _, _, hechoes⟩ := hsafe
    cases hempty.symm.trans hechoes.request
  · intro hsafe
    obtain ⟨_, _, _, hechoes⟩ := hsafe
    cases hmissing.symm.trans hechoes.request

end Game
