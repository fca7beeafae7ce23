/-
`PacketExecuteQueue`, as a system of interleaved steps.

Producers call `Enqueue`, owner threads call `SetProcessor`, `Start` and `Stop`, and the
worker that `Start` creates runs `Run` until `Stop` has it return.  Each statement that
touches shared memory is one step.  In `Run` that includes the two reads of the wait's
predicate and the two of the test after it: the predicate is evaluated with `_mutex` held,
and if it is false the wait releases `_mutex` and blocks in one step.  A notification wakes
the worker only if it is blocked.  A blocked worker may also wake for no reason, and one
that wakes takes `_mutex` again before it evaluates the predicate.

`_queue` is a `ProducerQueue` whose `try_dequeue` may serve any producer and fails only when
nothing is waiting; `size_approx` is exact.  `Start` creates a thread only when there is
none, and `SetProcessor` is called only then, since both write what a worker reads without a
lock.
-/
import Cube.Library.System
import Cube.Library.ProducerQueue
import Cube.Library.Mutex
import Cube.Protocol.Packet

namespace Core.PacketExecuteQueue

open Library Protocol

/-- A packet given to `Enqueue` by a producer. -/
abbrev Packet (π : Type) : Type := Entry π PacketItem

/-- A thread that calls `Enqueue`, one that calls `Start` and `Stop`, or the thread `_thread`. -/
inductive Party (π ω : Type) where
  | producer (i : π)
  | owner (o : ω)
  | worker
  deriving DecidableEq

/-- How a call of the processor ends: the `try` block completes, or one of its handlers runs. -/
inductive Outcome where
  | returned
  | exception      -- caught as `const std::exception&`
  | unknown        -- caught by `catch (...)`
  deriving DecidableEq

/-- The point a party stands at: what it does next. -/
inductive Point (π : Type) where
  | idle                     -- outside every call; for the worker, `_thread` is not joinable
  | notifyOne                -- in `Enqueue`, after the push
  | spawn                    -- in `Start`, after `_isRunning = true`
  | clear                    -- in `Stop`, with `_mutex` just locked
  | endLock                  -- in `Stop`, after `_isRunning = false`
  | notifyAll                -- in `Stop`, after the scope of the lock
  | joinable
  | join
  | lock                     -- at the head of the loop in `Run`
  | predRunning              -- in the predicate `!_isRunning || HasPending()`, at its first test
  | predPending              -- at its second test
  | block                    -- the predicate was false
  | waiting                  -- blocked in `_cv.wait`
  | woken                    -- awake in `_cv.wait`, without `_mutex`
  | testRunning              -- at the first test of `if (!_isRunning && !HasPending()) return;`
  | testPending              -- at its second test
  | unlock
  | exit                     -- at `return`, with `_mutex` still locked
  | hasPending               -- at the head of the loop in `ProcessPackets`
  | tryDequeue
  | invoke (e : Packet π)    -- `TryDequeue` gave `e`
  | calling (e : Packet π)   -- in `_processor(..)`
  | finished                 -- `Run` has returned, the thread has not been joined
  deriving DecidableEq

/-- The queue with its threads, and the calls of the processor that were started and finished. -/
structure State (π ω : Type) [DecidableEq π] where
  isRunning : Bool
  mutex : Option (Party π ω)
  queue : ProducerQueue π PacketItem
  hasProcessor : Bool
  pc : Party π ω → Point π
  calls : List (Packet π)
  returns : List (Packet π)

/-- One step of one thread: of `Enqueue`, `SetProcessor`, `Start`, `Stop`, `Run` and
`ProcessPackets`, in this order. -/
inductive Action (π ω : Type) where
  | enqueue (i : π) (item : PacketItem)        -- `_queue.enqueue(std::move(item))`
  | notifyOne (i : π)
  | setProcessor (o : ω) (nonEmpty : Bool)     -- with a function, or with an empty one
  | start (o : ω)                              -- `_isRunning = true`
  | spawn (o : ω)                              -- `_thread = std::thread(..)`
  | stop (o : ω)                               -- `std::lock_guard lock(_mutex)`
  | clear (o : ω)                              -- `_isRunning = false`
  | endLock (o : ω)                            -- the end of the lock's scope
  | notifyAll (o : ω)
  | joinable (o : ω)                           -- `_thread.joinable()` is true
  | notJoinable (o : ω)                        -- `_thread.joinable()` is false, `Stop` returns
  | join (o : ω)                               -- `_thread.join()`, and `Stop` returns
  | lock                                       -- `std::unique_lock lock(_mutex)`
  | predRunning
  | predPending
  | block
  | wake                                       -- without a notification
  | relock
  | testRunning
  | testPending
  | unlock
  | exit
  | hasPending
  | tryDequeue (e : Packet π)                  -- `TryDequeue(item)` gives `e`
  | tryDequeueFalse
  | invoke (e : Packet π)                      -- `if (_processor)` and the call
  | finish (e : Packet π) (outcome : Outcome)
  deriving DecidableEq

variable {π ω : Type} [DecidableEq π] [DecidableEq ω]

/-- A queue just constructed. -/
def init : State π ω where
  isRunning := false
  mutex := none
  queue := ProducerQueue.empty
  hasProcessor := false
  pc := fun _ => .idle
  calls := []
  returns := []

/-- The thread stands where the step is taken, and the step does not have to wait. -/
def Enabled (s : State π ω) : Action π ω → Prop
  | .enqueue i _ => s.pc (.producer i) = .idle
  | .notifyOne i => s.pc (.producer i) = .notifyOne
  | .setProcessor o _ => s.pc (.owner o) = .idle ∧ s.pc .worker = .idle
  | .start o => s.pc (.owner o) = .idle ∧ s.pc .worker = .idle
  | .spawn o => s.pc (.owner o) = .spawn ∧ s.pc .worker = .idle
  | .stop o => s.pc (.owner o) = .idle ∧ s.mutex = none
  | .clear o => s.pc (.owner o) = .clear
  | .endLock o => s.pc (.owner o) = .endLock
  | .notifyAll o => s.pc (.owner o) = .notifyAll
  | .joinable o => s.pc (.owner o) = .joinable ∧ s.pc .worker ≠ .idle
  | .notJoinable o => s.pc (.owner o) = .joinable ∧ s.pc .worker = .idle
  | .join o => s.pc (.owner o) = .join ∧ s.pc .worker = .finished
  | .lock => s.pc .worker = .lock ∧ s.mutex = none
  | .predRunning => s.pc .worker = .predRunning
  | .predPending => s.pc .worker = .predPending
  | .block => s.pc .worker = .block
  | .wake => s.pc .worker = .waiting
  | .relock => s.pc .worker = .woken ∧ s.mutex = none
  | .testRunning => s.pc .worker = .testRunning
  | .testPending => s.pc .worker = .testPending
  | .unlock => s.pc .worker = .unlock
  | .exit => s.pc .worker = .exit
  | .hasPending => s.pc .worker = .hasPending
  | .tryDequeue e => s.pc .worker = .tryDequeue ∧ s.queue.front e.producer = some e
  | .tryDequeueFalse => s.pc .worker = .tryDequeue ∧ s.queue.pending = []
  | .invoke e => s.pc .worker = .invoke e
  | .finish e _ => s.pc .worker = .calling e

instance (s : State π ω) : ∀ a, Decidable (Enabled s a)
  | .enqueue .. | .notifyOne .. => inferInstanceAs (Decidable (_ = _))
  | .setProcessor .. | .start .. | .spawn .. | .stop .. => inferInstanceAs (Decidable (_ ∧ _))
  | .clear .. | .endLock .. | .notifyAll .. => inferInstanceAs (Decidable (_ = _))
  | .joinable .. | .notJoinable .. | .join .. => inferInstanceAs (Decidable (_ ∧ _))
  | .lock | .relock => inferInstanceAs (Decidable (_ ∧ _))
  | .predRunning | .predPending | .block | .wake => inferInstanceAs (Decidable (_ = _))
  | .testRunning | .testPending | .unlock | .exit | .hasPending =>
      inferInstanceAs (Decidable (_ = _))
  | .tryDequeue .. | .tryDequeueFalse => inferInstanceAs (Decidable (_ ∧ _))
  | .invoke .. | .finish .. => inferInstanceAs (Decidable (_ = _))

/-- The state with party `p` moved to point `f`. -/
def State.goto (s : State π ω) (p : Party π ω) (f : Point π) : State π ω :=
  { s with pc := Function.update s.pc p f }

/-- A notification: a blocked worker wakes. -/
def State.notify (s : State π ω) : State π ω :=
  if s.pc .worker = .waiting then s.goto .worker .woken else s

/-- What a step does. -/
def next (s : State π ω) : Action π ω → State π ω
  | .enqueue i item =>
      { s.goto (.producer i) .notifyOne with queue := s.queue.enqueue i item }
  | .notifyOne i => s.notify.goto (.producer i) .idle
  | .setProcessor _ nonEmpty => { s with hasProcessor := nonEmpty }
  | .start o => { s.goto (.owner o) .spawn with isRunning := true }
  | .spawn o => (s.goto .worker .lock).goto (.owner o) .idle
  | .stop o => { s.goto (.owner o) .clear with mutex := some (.owner o) }
  | .clear o => { s.goto (.owner o) .endLock with isRunning := false }
  | .endLock o => { s.goto (.owner o) .notifyAll with mutex := none }
  | .notifyAll o => s.notify.goto (.owner o) .joinable
  | .joinable o => s.goto (.owner o) .join
  | .notJoinable o => s.goto (.owner o) .idle
  | .join o => (s.goto .worker .idle).goto (.owner o) .idle
  | .lock => { s.goto .worker .predRunning with mutex := some .worker }
  | .predRunning =>
      if s.isRunning then s.goto .worker .predPending else s.goto .worker .testRunning
  | .predPending =>
      if s.queue.pending = [] then s.goto .worker .block else s.goto .worker .testRunning
  | .block => { s.goto .worker .waiting with mutex := none }
  | .wake => s.goto .worker .woken
  | .relock => { s.goto .worker .predRunning with mutex := some .worker }
  | .testRunning =>
      if s.isRunning then s.goto .worker .unlock else s.goto .worker .testPending
  | .testPending =>
      if s.queue.pending = [] then s.goto .worker .exit else s.goto .worker .unlock
  | .unlock => { s.goto .worker .hasPending with mutex := none }
  | .exit => { s.goto .worker .finished with mutex := none }
  | .hasPending =>
      if s.queue.pending = [] then s.goto .worker .lock else s.goto .worker .tryDequeue
  | .tryDequeue e =>
      { s.goto .worker (.invoke e) with queue := s.queue.dequeueFrom e.producer }
  | .tryDequeueFalse => s.goto .worker .hasPending
  | .invoke e =>
      if s.hasProcessor then { s.goto .worker (.calling e) with calls := s.calls ++ [e] }
      else s.goto .worker .hasPending
  -- nothing follows the `try` block in the loop, and its handlers are empty
  | .finish e _ => { s.goto .worker .hasPending with returns := s.returns ++ [e] }

/-- The queue, used by producers of type `π` and owner threads of type `ω`. -/
def executeQueue (π ω : Type) [DecidableEq π] [DecidableEq ω] :
    System (State π ω) (Action π ω) where
  init := init
  Enabled := Enabled
  next := next

instance (s : State π ω) (a : Action π ω) : Decidable ((executeQueue π ω).Enabled s a) :=
  inferInstanceAs (Decidable (Enabled s a))

/-! ### Reading the moves -/

@[simp] theorem goto_pc (s : State π ω) (p : Party π ω) (f : Point π) :
    (s.goto p f).pc = Function.update s.pc p f := rfl
@[simp] theorem goto_isRunning (s : State π ω) (p : Party π ω) (f : Point π) :
    (s.goto p f).isRunning = s.isRunning := rfl
@[simp] theorem goto_mutex (s : State π ω) (p : Party π ω) (f : Point π) :
    (s.goto p f).mutex = s.mutex := rfl
@[simp] theorem goto_queue (s : State π ω) (p : Party π ω) (f : Point π) :
    (s.goto p f).queue = s.queue := rfl
@[simp] theorem goto_hasProcessor (s : State π ω) (p : Party π ω) (f : Point π) :
    (s.goto p f).hasProcessor = s.hasProcessor := rfl
@[simp] theorem goto_calls (s : State π ω) (p : Party π ω) (f : Point π) :
    (s.goto p f).calls = s.calls := rfl
@[simp] theorem goto_returns (s : State π ω) (p : Party π ω) (f : Point π) :
    (s.goto p f).returns = s.returns := rfl

/-- A notification moves the worker if it is blocked, and nothing else. -/
theorem notify_cases (s : State π ω) :
    (s.pc .worker = .waiting ∧ s.notify = s.goto .worker .woken) ∨
      (s.pc .worker ≠ .waiting ∧ s.notify = s) := by
  unfold State.notify
  by_cases h : s.pc .worker = .waiting
  · exact Or.inl ⟨h, if_pos h⟩
  · exact Or.inr ⟨h, if_neg h⟩

theorem notify_worker (s : State π ω) : s.notify.pc .worker ≠ .waiting := by
  rcases notify_cases s with ⟨-, heq⟩ | ⟨hne, heq⟩ <;> simp [heq]
  exact hne

@[simp] theorem notify_pc_of_ne (s : State π ω) {p : Party π ω} (h : p ≠ .worker) :
    s.notify.pc p = s.pc p := by
  rcases notify_cases s with ⟨-, heq⟩ | ⟨-, heq⟩ <;> simp [heq, h]

@[simp] theorem notify_isRunning (s : State π ω) : s.notify.isRunning = s.isRunning := by
  rcases notify_cases s with ⟨-, heq⟩ | ⟨-, heq⟩ <;> simp [heq]
@[simp] theorem notify_mutex (s : State π ω) : s.notify.mutex = s.mutex := by
  rcases notify_cases s with ⟨-, heq⟩ | ⟨-, heq⟩ <;> simp [heq]
@[simp] theorem notify_queue (s : State π ω) : s.notify.queue = s.queue := by
  rcases notify_cases s with ⟨-, heq⟩ | ⟨-, heq⟩ <;> simp [heq]
@[simp] theorem notify_hasProcessor (s : State π ω) :
    s.notify.hasProcessor = s.hasProcessor := by
  rcases notify_cases s with ⟨-, heq⟩ | ⟨-, heq⟩ <;> simp [heq]
@[simp] theorem notify_calls (s : State π ω) : s.notify.calls = s.calls := by
  rcases notify_cases s with ⟨-, heq⟩ | ⟨-, heq⟩ <;> simp [heq]
@[simp] theorem notify_returns (s : State π ω) : s.notify.returns = s.returns := by
  rcases notify_cases s with ⟨-, heq⟩ | ⟨-, heq⟩ <;> simp [heq]

end Core.PacketExecuteQueue
