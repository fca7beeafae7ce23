/-
`TcpAcceptor`, as a system of interleaved steps.

The accept loop exists only as a chain.  `Start` sets `_isRunning` and calls `DoAccept`, which
starts an `async_accept`; the handler of an accept that succeeded hands the socket to
`_sessionFactory` and calls `DoAccept` again.  `Stop` clears the flag and closes the acceptor.

The parties are the thread that calls `Start` and `Stop`, one call after the other, and the
handlers, one for each `async_accept` started.  An `async_accept` completes when the system has
its result, which makes the handler ready; the handler is called later, at any time.

Of asio the model uses what its documentation says of a closed acceptor: closing turns an accept
that is still pending into an error, an accept started on a closed acceptor completes with an
error, and a result that was ready before the close stays as it is.  Nothing opens a closed
acceptor again.
-/
import Cube.Library.System
import Cube.Library.Token
import Cube.Core.Asio

namespace Core.TcpAcceptor

open Library

/-- The thread that calls `Start` and `Stop`, or the handler of the accept with this number. -/
inductive Party where
  | caller
  | handler (n : Nat)
  deriving DecidableEq

/-- The point a party stands at: what it does next. -/
inductive Point where
  | idle
  | doAccept                -- at the head of `DoAccept`
  | asyncAccept             -- in `DoAccept`, after the test of `_isRunning`
  | close                   -- in `Stop`, after `_isRunning = false`
  | pending                 -- the accept of this handler is with the system
  | ready (ec : ErrorCode)  -- it has completed with `ec`, the handler has not been called
  | factory                 -- in the handler, after `if (ec) return;`
  deriving DecidableEq

/-- The acceptor, the number of accepts it has started, and the accepts whose sockets went to
`_sessionFactory`. -/
structure State where
  isRunning : Bool
  isOpen : Bool
  pc : Party → Point
  started : Nat
  sessions : List Nat

/-- One step of one party, or of the system below asio. -/
inductive Action where
  | start                                -- in `Start`: `_isRunning = true;`
  | stop                                 -- in `Stop`: `_isRunning = false;`
  | close                                -- in `Stop`: `_acceptor.close(ec);`
  | doAccept (p : Party)                 -- `if (!_isRunning) return;`
  | asyncAccept (p : Party)              -- `_acceptor.async_accept(..)`
  | complete (n : Nat) (ec : ErrorCode)  -- the result of an accept arrives
  | handle (n : Nat) (ec : ErrorCode)    -- its handler is called: `if (ec) return;`
  | factory (n : Nat)                    -- `if (_sessionFactory)` and the call
  deriving DecidableEq

/-- An acceptor just constructed: open and listening, not running. -/
def init : State where
  isRunning := false
  isOpen := true
  pc := fun _ => .idle
  started := 0
  sessions := []

/-- The party stands where the step is taken.  On a closed acceptor an accept can only fail. -/
def Enabled (s : State) : Action → Prop
  | .start => s.pc .caller = .idle
  | .stop => s.pc .caller = .idle
  | .close => s.pc .caller = .close
  | .doAccept p => s.pc p = .doAccept
  | .asyncAccept p => s.pc p = .asyncAccept
  | .complete n ec => s.pc (.handler n) = .pending ∧ (s.isOpen = true ∨ ec.failed = true)
  | .handle n ec => s.pc (.handler n) = .ready ec
  | .factory n => s.pc (.handler n) = .factory

instance (s : State) : ∀ a, Decidable (Enabled s a)
  | .start | .stop | .close => inferInstanceAs (Decidable (_ = _))
  | .doAccept .. | .asyncAccept .. => inferInstanceAs (Decidable (_ = _))
  | .complete .. => inferInstanceAs (Decidable (_ ∧ (_ ∨ _)))
  | .handle .. | .factory .. => inferInstanceAs (Decidable (_ = _))

/-- The acceptor with party `p` moved to point `f`. -/
def State.goto (s : State) (p : Party) (f : Point) : State :=
  { s with pc := Function.update s.pc p f }

/-- What a step does, for an acceptor whose `_sessionFactory` is set or empty. -/
def next (hasFactory : Bool) (s : State) : Action → State
  | .start => { s.goto .caller .doAccept with isRunning := true }
  | .stop => { s.goto .caller .close with isRunning := false }
  | .close => { s.goto .caller .idle with isOpen := false }
  | .doAccept p => if s.isRunning then s.goto p .asyncAccept else s.goto p .idle
  -- the handler of the new accept has the next free number
  | .asyncAccept p =>
      { (s.goto p .idle).goto (.handler s.started) .pending with started := s.started + 1 }
  | .complete n ec => s.goto (.handler n) (.ready ec)
  | .handle n ec => if ec.failed then s.goto (.handler n) .idle else s.goto (.handler n) .factory
  | .factory n =>
      { s.goto (.handler n) .doAccept with
        sessions := if hasFactory then s.sessions ++ [n] else s.sessions }

/-- The acceptor, given whether a session factory is set. -/
def acceptor (hasFactory : Bool) : System State Action where
  init := init
  Enabled := Enabled
  next := next hasFactory

instance (hasFactory : Bool) (s : State) (a : Action) :
    Decidable ((acceptor hasFactory).Enabled s a) := inferInstanceAs (Decidable (Enabled s a))

/-! ### Reading the moves -/

@[simp] theorem goto_pc (s : State) (p : Party) (f : Point) :
    (s.goto p f).pc = Function.update s.pc p f := rfl
@[simp] theorem goto_isRunning (s : State) (p : Party) (f : Point) :
    (s.goto p f).isRunning = s.isRunning := rfl
@[simp] theorem goto_isOpen (s : State) (p : Party) (f : Point) :
    (s.goto p f).isOpen = s.isOpen := rfl
@[simp] theorem goto_started (s : State) (p : Party) (f : Point) :
    (s.goto p f).started = s.started := rfl

end Core.TcpAcceptor
