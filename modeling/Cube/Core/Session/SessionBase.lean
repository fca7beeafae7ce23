/-
The send path of `SessionBase`, as a system of interleaved steps.

`Send` is called by any number of threads.  It enqueues its packet, then tries to set
`_isWriting` by a compare-and-exchange; the caller that succeeds runs `WriteAsync`.
`WriteAsync` runs again from the completion handler of every `async_write` that succeeds.
Each statement that touches shared memory is one step, so every interleaving of callers
and handlers is a run of `sendPath`.

The parties are the calling threads and the completion handlers, one handler for each
`async_write` started.  `pc` gives the point of the code each party stands at.  The local
vector of `WriteAsync` is kept with the point: `none` while it is as default-constructed,
`some e` once `try_dequeue` has filled it with `e`.

What is outside the repository enters as steps whose outcome is left open:
`_sendQueue` is a `ProducerQueue` whose `try_dequeue` may serve any producer, or fail;
an `async_write` completes at most once, with any error code; `Disconnect`, which is
declared but has no body, touches neither the queue nor the flag.
-/
import Cube.Library.System
import Cube.Library.ProducerQueue
import Cube.Library.Token
import Cube.Core.Asio

namespace Core.SessionBase

open Library

/-- `std::vector<uint8_t>`. -/
abbrev Bytes : Type := List UInt8

/-- A packet given to `Send` by a thread. -/
abbrev Sent (τ : Type) : Type := Entry τ Bytes

/-- The local `packet` of `WriteAsync`: `none` until `try_dequeue` fills it.  Until then the
vector is empty. -/
abbrev Packet (τ : Type) : Type := Option (Sent τ)

/-- A thread that calls `Send`, or the handler of the `async_write` with this number. -/
inductive Party (τ : Type) where
  | send (t : τ)
  | handler (n : Nat)
  deriving DecidableEq

/-- The point of the send path a party stands at: what it does next. -/
inductive Point (τ : Type) where
  | idle
  | compareExchange                 -- in `Send`, after the enqueue
  | tryDequeue                      -- at the head of `WriteAsync`
  | release (packet : Packet τ)     -- `try_dequeue` returned true
  | asyncWrite (packet : Packet τ)  -- `try_dequeue` returned false
  | writing                         -- the `async_write` of this handler is outstanding
  | disconnect                      -- in the handler, after `OnError(ec.message())`
  | failed                          -- the handler returned after `Disconnect()`
  deriving DecidableEq

/-- The session as the send path sees it, with what it has handed to the outside: the buffers
given to `asio::async_write` in order, the calls of `Disconnect`, the lines `OnError` printed. -/
structure State (τ : Type) [DecidableEq τ] where
  sendQueue : ProducerQueue τ Bytes
  isWriting : Bool
  pc : Party τ → Point τ
  written : List (Packet τ)
  disconnects : Nat
  console : List String

/-- One step of one party. -/
inductive Action (τ : Type) where
  | enqueue (t : τ) (data : Bytes)                -- in `Send`: `_sendQueue.enqueue(data)`
  | compareExchange (t : τ)                       -- in `Send`: the test that takes the chain
  | tryDequeueTrue (p : Party τ) (e : Sent τ)     -- `_sendQueue.try_dequeue(packet)` gives `e`
  | tryDequeueFalse (p : Party τ)                 -- it gives nothing
  | release (p : Party τ) (packet : Packet τ)     -- `_isWriting = false; return;`
  | asyncWrite (p : Party τ) (packet : Packet τ)  -- `asio::async_write(..)`
  | complete (n : Nat) (ec : ErrorCode)           -- the completion handler is called with `ec`
  | disconnect (n : Nat)                          -- in the handler: `Disconnect()`
  deriving DecidableEq

variable {τ : Type} [DecidableEq τ]

/-- A session just constructed. -/
def init : State τ where
  sendQueue := ProducerQueue.empty
  isWriting := false
  pc := fun _ => .idle
  written := []
  disconnects := 0
  console := []

/-- The party stands where the step is taken, and the queue can give what it is said to give. -/
def Enabled (s : State τ) : Action τ → Prop
  | .enqueue t _ => s.pc (.send t) = .idle
  | .compareExchange t => s.pc (.send t) = .compareExchange
  | .tryDequeueTrue p e => s.pc p = .tryDequeue ∧ s.sendQueue.front e.producer = some e
  | .tryDequeueFalse p => s.pc p = .tryDequeue
  | .release p packet => s.pc p = .release packet
  | .asyncWrite p packet => s.pc p = .asyncWrite packet
  | .complete n _ => s.pc (.handler n) = .writing
  | .disconnect n => s.pc (.handler n) = .disconnect

instance (s : State τ) : ∀ a, Decidable (Enabled s a)
  | .enqueue .. => inferInstanceAs (Decidable (_ = _))
  | .compareExchange .. => inferInstanceAs (Decidable (_ = _))
  | .tryDequeueTrue .. => inferInstanceAs (Decidable (_ ∧ _))
  | .tryDequeueFalse .. => inferInstanceAs (Decidable (_ = _))
  | .release .. => inferInstanceAs (Decidable (_ = _))
  | .asyncWrite .. => inferInstanceAs (Decidable (_ = _))
  | .complete .. => inferInstanceAs (Decidable (_ = _))
  | .disconnect .. => inferInstanceAs (Decidable (_ = _))

/-- The session with party `p` moved to point `f`. -/
def State.goto (s : State τ) (p : Party τ) (f : Point τ) : State τ :=
  { s with pc := Function.update s.pc p f }

/-- What `OnError` prints. -/
def onErrorLine (message : String) : String := "SessionBase::OnError: " ++ message

/-- What a step does. -/
def next (s : State τ) : Action τ → State τ
  | .enqueue t data =>
      { s.goto (.send t) .compareExchange with sendQueue := s.sendQueue.enqueue t data }
  | .compareExchange t =>
      if s.isWriting then s.goto (.send t) .idle
      else { s.goto (.send t) .tryDequeue with isWriting := true }
  -- `if (_sendQueue.try_dequeue(packet)) { _isWriting = false; return; }`
  | .tryDequeueTrue p e =>
      { s.goto p (.release (some e)) with sendQueue := s.sendQueue.dequeueFrom e.producer }
  | .tryDequeueFalse p => s.goto p (.asyncWrite none)
  | .release p _ => { s.goto p .idle with isWriting := false }
  -- the handler of the new write has the next free number
  | .asyncWrite p packet =>
      { (s.goto p .idle).goto (.handler s.written.length) .writing with
        written := s.written ++ [packet] }
  | .complete n ec =>
      if ec.failed then
        { s.goto (.handler n) .disconnect with console := s.console ++ [onErrorLine ec.message] }
      else s.goto (.handler n) .tryDequeue
  | .disconnect n => { s.goto (.handler n) .failed with disconnects := s.disconnects + 1 }

/-- The send path of a session owned by a `shared_ptr`, used by threads of type `τ`. -/
def sendPath (τ : Type) [DecidableEq τ] : System (State τ) (Action τ) where
  init := init
  Enabled := Enabled
  next := next

instance (s : State τ) (a : Action τ) : Decidable ((sendPath τ).Enabled s a) :=
  inferInstanceAs (Decidable (Enabled s a))

/-! ### Reading the moves -/

@[simp] theorem goto_pc (s : State τ) (p : Party τ) (f : Point τ) :
    (s.goto p f).pc = Function.update s.pc p f := rfl
@[simp] theorem goto_sendQueue (s : State τ) (p : Party τ) (f : Point τ) :
    (s.goto p f).sendQueue = s.sendQueue := rfl
@[simp] theorem goto_isWriting (s : State τ) (p : Party τ) (f : Point τ) :
    (s.goto p f).isWriting = s.isWriting := rfl
@[simp] theorem goto_written (s : State τ) (p : Party τ) (f : Point τ) :
    (s.goto p f).written = s.written := rfl
@[simp] theorem goto_disconnects (s : State τ) (p : Party τ) (f : Point τ) :
    (s.goto p f).disconnects = s.disconnects := rfl

end Core.SessionBase
