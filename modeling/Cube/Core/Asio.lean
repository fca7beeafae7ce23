/-
What the server uses of asio's error codes.

A completion handler is called with an `error_code`.  The code's own tests of it are the
conversion to `bool`, which is true when the value is not zero, and `message()`, whose text
comes from the platform.
-/
namespace Core

/-- `asio::error_code`: a value and the text `message()` gives for it. -/
structure ErrorCode where
  value : Int
  message : String
  deriving DecidableEq

namespace ErrorCode

/-- `if (ec)`. -/
def failed (ec : ErrorCode) : Bool := ec.value != 0

/-- The code of an operation that succeeded. -/
def success : ErrorCode := ⟨0, "Success"⟩

@[simp] theorem success_failed : success.failed = false := rfl

end ErrorCode

end Core
