/-
The packets the dispatcher works on.
-/
namespace Protocol

/-- `enum class PacketID : uint16_t`.  A received id is cast to it, so every value can occur. -/
structure PacketID where
  value : UInt16
  deriving DecidableEq

namespace PacketID

def None : PacketID := ⟨0⟩
def REQ_ECHO : PacketID := ⟨1000⟩
def RES_ECHO : PacketID := ⟨1001⟩

end PacketID

/-- `PacketItem`, with the bytes its `payload` points to. -/
structure PacketItem where
  packetId : PacketID
  sessionId : UInt64
  payload : List UInt8
  payloadSize : UInt64
  deriving DecidableEq

end Protocol
