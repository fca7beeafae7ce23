/-
`HandlerManager`, as a system of interleaved steps.

The manager owns a `PacketExecuteQueue`, whose worker calls `ProcessPacket` for each packet it
takes, and a table of handlers, which its constructor fills.  It shares the `SessionManager` with
any number of threads that call `Add` and `Remove`.

The queue's part of the state is that of `executeQueue`, and every step of its threads is a step
here.  Its call of the processor is opened up: between `invoke` and `finish` the worker takes the
steps of `ProcessPacket`.  A member of `SessionManager` is three steps: it locks the mutex, works on
the table, and unlocks the mutex.  Of the table only `find` is used, which finds the same in every
kind of map.  What a handler does is left open, except that it returns or throws.
-/
import Cube.Core.Session.SessionManager
import Cube.Core.Dispatcher.Ledger

namespace Game.HandlerManager

open Library Core Protocol

abbrev Call : Type := SessionManager.Call

/-- `std::unordered_map<uint16_t, HandlerFunction>` with functions from `H`, none of them empty. -/
abbrev HandlerTable (H : Type) : Type := AList fun _ : UInt16 => H

/-- A handler with the arguments of one call of it. -/
structure Invocation (H : Type) where
  handler : H
  session : Session
  payload : List UInt8
  size : UInt64
  deriving DecidableEq

/-- `RegisterAllHandlers()`, given what `HandlerFactory::CreateEchoHandler()` returns. -/
def registerAllHandlers {H : Type} (echoHandler : H) : HandlerTable H :=
  (∅ : HandlerTable H).insert PacketID.REQ_ECHO.value echoHandler

/-- `ProcessPacket` from the point on where `FindBySessionId` has returned: the call it makes. -/
def processPacket {H : Type} (handlers : HandlerTable H) (item : PacketItem) :
    Option Session → Option (Invocation H)
  | none => none
  | some session =>
      match handlers.lookup item.packetId.value with
      | none => none
      | some handler => some ⟨handler, session, item.payload, item.payloadSize⟩

/-- The worker of the execute queue, or a thread that calls `Add` and `Remove`. -/
inductive Party (τ : Type) where
  | worker
  | thread (t : τ)
  deriving DecidableEq

/-- The point a party stands at: what it does next. -/
inductive Point (H : Type) where
  | outside
  | lock (c : Call)                                            -- in `Add` or `Remove`
  | apply (c : Call)
  | unlock
  | findLock (item : PacketItem)                               -- in `FindBySessionId`
  | find (item : PacketItem)
  | findUnlock (item : PacketItem) (session : Option Session)
  | route (item : PacketItem) (session : Option Session)       -- after `FindBySessionId`
  | call (item : PacketItem) (inv : Invocation H)              -- at `it->second(..)`
  | handling (item : PacketItem)                               -- in the handler
  | returned (item : PacketItem)                               -- after a `return` without a call
  deriving DecidableEq

/-- The points at which a party holds the mutex of the session manager. -/
def Inside {H : Type} : Point H → Prop
  | .apply _ | .unlock | .find _ | .findUnlock _ _ => True
  | _ => False

structure State (π τ H : Type) [DecidableEq π] where
  executeQueue : PacketExecuteQueue.State π Unit
  handlers : HandlerTable H
  sessions : Sessions SessionList
  mutex : Option (Party τ)
  pc : Party τ → Point H

/-- One step of one thread. -/
inductive Action (π τ H : Type) where
  | executeQueue (a : PacketExecuteQueue.Action π Unit)        -- of the queue's own threads
  | begin (t : τ) (c : Call)                                   -- `Add` or `Remove` is called
  | lock (t : τ) (c : Call)
  | apply (t : τ) (c : Call)                                   -- the table is changed
  | unlock (t : τ)
  | findLock (item : PacketItem)
  | find (item : PacketItem)                                   -- the table is read
  | findUnlock (item : PacketItem) (session : Option Session)
  | route (item : PacketItem) (session : Option Session)       -- the two tests
  | call (item : PacketItem) (inv : Invocation H)

variable {π τ H : Type} [DecidableEq π] [DecidableEq τ]

/-- The manager just constructed: the processor is set, nothing is registered. -/
def init (handlers : HandlerTable H) : State π τ H where
  executeQueue := { PacketExecuteQueue.init with hasProcessor := true }
  handlers := handlers
  sessions := Sessions.empty
  mutex := none
  pc := fun _ => .outside

/-- Whether the queue's step fits the place of `ProcessPacket`.  Nobody sets the processor again.
The call of the processor ends when `ProcessPacket` has returned, or when the handler has returned
or thrown. -/
def Fits (p : Point H) : PacketExecuteQueue.Action π Unit → Prop
  | .setProcessor _ _ => False
  | .finish e outcome => p = .handling e.value ∨ p = .returned e.value ∧ outcome = .returned
  | _ => True

/-- The thread stands where the step is taken, and the step does not have to wait. -/
def Enabled (s : State π τ H) : Action π τ H → Prop
  | .executeQueue a => PacketExecuteQueue.Enabled s.executeQueue a ∧ Fits (s.pc .worker) a
  | .begin t _ => s.pc (.thread t) = .outside
  | .lock t c => s.pc (.thread t) = .lock c ∧ s.mutex = none
  | .apply t c => s.pc (.thread t) = .apply c
  | .unlock t => s.pc (.thread t) = .unlock
  | .findLock item => s.pc .worker = .findLock item ∧ s.mutex = none
  | .find item => s.pc .worker = .find item
  | .findUnlock item session => s.pc .worker = .findUnlock item session
  | .route item session => s.pc .worker = .route item session
  | .call item inv => s.pc .worker = .call item inv

instance [DecidableEq H] (p : Point H) :
    ∀ a : PacketExecuteQueue.Action π Unit, Decidable (Fits p a)
  | .setProcessor .. => isFalse id
  | .finish .. => inferInstanceAs (Decidable (_ ∨ _ ∧ _))
  | .enqueue .. | .notifyOne .. | .start .. | .spawn .. | .stop .. | .clear .. | .endLock ..
  | .notifyAll .. | .joinable .. | .notJoinable .. | .join .. | .lock | .predRunning
  | .predPending | .block | .wake | .relock | .testRunning | .testPending | .unlock | .exit
  | .hasPending | .tryDequeue .. | .tryDequeueFalse | .invoke .. => isTrue trivial

instance [DecidableEq H] (s : State π τ H) : ∀ a, Decidable (Enabled s a)
  | .executeQueue _ | .lock .. | .findLock _ => inferInstanceAs (Decidable (_ ∧ _))
  | .begin .. | .apply .. | .unlock _ | .find _ | .findUnlock .. | .route .. | .call .. =>
      inferInstanceAs (Decidable (_ = _))

/-- The state with party `p` moved to point `f`. -/
def State.goto (s : State π τ H) (p : Party τ) (f : Point H) : State π τ H :=
  { s with pc := Function.update s.pc p f }

/-- Where a step of the queue takes the worker in `ProcessPacket`. -/
def State.process (s : State π τ H) : PacketExecuteQueue.Action π Unit → State π τ H
  | .invoke e => s.goto .worker (.findLock e.value)
  | .finish _ _ => s.goto .worker .outside
  | _ => s

/-- What a step does. -/
def next (s : State π τ H) : Action π τ H → State π τ H
  | .executeQueue a =>
      { s.process a with executeQueue := PacketExecuteQueue.next s.executeQueue a }
  | .begin t c => s.goto (.thread t) (.lock c)
  | .lock t c => { s.goto (.thread t) (.apply c) with mutex := some (.thread t) }
  | .apply t c => { s.goto (.thread t) .unlock with sessions := c.apply s.sessions }
  | .unlock t => { s.goto (.thread t) .outside with mutex := none }
  | .findLock item => { s.goto .worker (.find item) with mutex := some .worker }
  | .find item => s.goto .worker (.findUnlock item (s.sessions.find item.sessionId))
  | .findUnlock item session => { s.goto .worker (.route item session) with mutex := none }
  | .route item session =>
      match processPacket s.handlers item session with
      | some inv => s.goto .worker (.call item inv)
      | none => s.goto .worker (.returned item)
  | .call item _ => s.goto .worker (.handling item)

/-- The manager with this table of handlers, packets from producers of type `π`, and threads of
type `τ` that add and remove sessions. -/
def handlerManager (π τ : Type) {H : Type} [DecidableEq π] [DecidableEq τ]
    (handlers : HandlerTable H) : System (State π τ H) (Action π τ H) where
  init := init handlers
  Enabled := Enabled
  next := next

instance [DecidableEq H] (handlers : HandlerTable H) (s : State π τ H) (a : Action π τ H) :
    Decidable ((handlerManager π τ handlers).Enabled s a) :=
  inferInstanceAs (Decidable (Enabled s a))

/-! ### The queue's steps -/

/-- The queue's steps that neither set the processor nor start or end a call of it. -/
def Passive : PacketExecuteQueue.Action π Unit → Prop
  | .setProcessor _ _ | .invoke _ | .finish _ _ => False
  | _ => True

theorem process_passive (s : State π τ H) {a : PacketExecuteQueue.Action π Unit}
    (ha : Passive a) : s.process a = s := by
  cases a with
  | invoke e => exact absurd ha id
  | finish e outcome => exact absurd ha id
  | _ => rfl

end Game.HandlerManager
