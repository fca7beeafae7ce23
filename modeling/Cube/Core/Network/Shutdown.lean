/-
What `Stop` prevents.

The flag is read only at the head of `DoAccept`, and a handler gets there after it has called
`_sessionFactory`.  So it is not `_isRunning = false` that keeps sessions from being made after
`Stop`.  It is that a closed acceptor delivers no further success.  A success that had arrived
before the close is still delivered, and a handler that had passed its test of the error code
still calls the factory.  If there is neither at the close, then there never will be, for the
acceptor is not opened again.
-/
import Cube.Core.Network.TcpAcceptor

namespace Core.TcpAcceptor

open Library System

/-- The handler at this point goes on to `_sessionFactory` whatever happens. -/
def Committed : Point → Prop
  | .ready ec => ec.failed = false
  | .factory => True
  | .idle | .doAccept | .asyncAccept | .close | .pending => False

/-- Once `Stop` has returned no handler calls `_sessionFactory` until the next `Start`. -/
def QuietAfterStop (hasFactory : Bool) (tr : List (State × Action)) : Prop :=
  ∀ pre mid post s₁ s₂ n, tr = pre ++ (s₁, .close) :: (mid ++ (s₂, .factory n) :: post) →
    hasFactory = true → ∃ e ∈ mid, e.2 = .start

/-- The condition on `Stop`: no handler is committed to the factory when it closes the acceptor. -/
def ClosesIdle (hasFactory : Bool) (s : State) : Action → Prop
  | .close => hasFactory = true → ∀ n, ¬Committed (s.pc (.handler n))
  | _ => True

/-- A closed acceptor none of whose handlers is committed. -/
structure Closed (s : State) : Prop where
  closed : s.isOpen = false
  idle : ∀ n, ¬Committed (s.pc (.handler n))

@[simp] theorem committed_idle : ¬Committed .idle := id
@[simp] theorem committed_doAccept : ¬Committed .doAccept := id
@[simp] theorem committed_asyncAccept : ¬Committed .asyncAccept := id
@[simp] theorem committed_close : ¬Committed .close := id
@[simp] theorem committed_pending : ¬Committed .pending := id
@[simp] theorem committed_factory : Committed .factory := trivial
@[simp] theorem committed_ready (ec : ErrorCode) :
    Committed (.ready ec) ↔ ec.failed = false := Iff.rfl

theorem Closed.goto {s : State} (h : Closed s) {p : Party} {f : Point} (hf : ¬Committed f) :
    Closed (s.goto p f) where
  closed := h.closed
  idle := by
    intro n hn
    rcases holds_update hn with hcom | ⟨-, hold⟩
    · exact hf hcom
    · exact h.idle n hold

/-- A closed acceptor stays closed and no handler of it becomes committed. -/
theorem closed_next {hasFactory : Bool} (s : State) (a : Action) (h : Closed s)
    (hen : Enabled s a) : Closed (next hasFactory s a) := by
  cases a with
  | start => exact ⟨h.closed, (h.goto (p := .caller) committed_doAccept).idle⟩
  | stop => exact ⟨h.closed, (h.goto (p := .caller) committed_close).idle⟩
  | close => exact ⟨rfl, (h.goto (p := .caller) committed_idle).idle⟩
  | doAccept p =>
      simp only [next]
      split
      · exact h.goto committed_asyncAccept
      · exact h.goto committed_idle
  | asyncAccept p =>
      have hidle := h.goto (p := p) committed_idle
      have hmove := hidle.goto (p := .handler s.started) committed_pending
      exact ⟨hmove.closed, hmove.idle⟩
  | complete n ec =>
      -- the acceptor is closed, so the completion can only be an error
      have hec : ec.failed = true := hen.2.resolve_left (by simp [h.closed])
      exact h.goto (by simp [hec])
  | handle n ec =>
      have hpc : s.pc (.handler n) = .ready ec := hen
      have hec : ec.failed = true := by
        have hno := h.idle n
        rw [hpc, committed_ready] at hno
        simpa using hno
      simp only [next, hec, if_true]
      exact h.goto committed_idle
  | factory n =>
      have hpc : s.pc (.handler n) = .factory := hen
      exact absurd (hpc ▸ committed_factory) (h.idle n)

theorem quietAfterStop_of_closesIdle {hasFactory : Bool} {tr : List (State × Action)} {s : State}
    (hr : (acceptor hasFactory).Run tr s) (hg : Guarded (ClosesIdle hasFactory) tr) :
    QuietAfterStop hasFactory tr := by
  intro pre mid post s₁ s₂ n heq hfac
  have hclose : ClosesIdle hasFactory s₁ .close := hg (s₁, .close) (by simp [heq])
  refine hr.separated (Q := Closed) (b := fun a => a = .start) ?_ ?_ ?_ heq
  · intro _
    refine ⟨rfl, fun m hm => hclose hfac m ?_⟩
    simpa [acceptor, next] using hm
  · intro s a _ hQ hen _
    exact closed_next s a hQ hen
  · intro hQ hen
    have hpc : s₂.pc (.handler n) = .factory := hen
    exact hQ.idle n (hpc ▸ committed_factory)

/-- A committed handler gets to the factory without a step of anybody else. -/
theorem committed_reaches_factory (hasFactory : Bool) {s : State} {n : Nat}
    (h : Committed (s.pc (.handler n))) :
    ∃ acts, Action.start ∉ acts ∧ (acceptor hasFactory).Admits s acts ∧
      ((acceptor hasFactory).after s acts).pc (.handler n) = .factory := by
  cases hpc : s.pc (.handler n) with
  | factory => exact ⟨[], by simp, trivial, hpc⟩
  | ready ec =>
      rw [hpc, committed_ready] at h
      exact ⟨[.handle n ec], by simp, ⟨hpc, trivial⟩, by simp [acceptor, next, h]⟩
  | idle => exact absurd (hpc ▸ h) committed_idle
  | doAccept => exact absurd (hpc ▸ h) committed_doAccept
  | asyncAccept => exact absurd (hpc ▸ h) committed_asyncAccept
  | close => exact absurd (hpc ▸ h) committed_close
  | pending => exact absurd (hpc ▸ h) committed_pending

/-- If a handler is committed when `Stop` closes the acceptor, the run can go on to the factory
before any `Start`. -/
theorem not_quietAfterStop {hasFactory : Bool} {tr : List (State × Action)} {s : State}
    (hen : Enabled s .close) (hno : ¬ClosesIdle hasFactory s .close) :
    ∃ acts, (acceptor hasFactory).Admits s (.close :: acts) ∧
      ¬QuietAfterStop hasFactory (tr ++ (acceptor hasFactory).trace s (.close :: acts)) := by
  obtain ⟨hfac, n, hn⟩ : hasFactory = true ∧ ∃ n, Committed (s.pc (.handler n)) := by
    simpa only [ClosesIdle, Classical.not_imp, not_forall, not_not] using hno
  have hn' : Committed ((next hasFactory s .close).pc (.handler n)) := by simpa [next] using hn
  obtain ⟨acts, hstart, hadm, hpc⟩ := committed_reaches_factory hasFactory hn'
  have hadm' : (acceptor hasFactory).Admits (next hasFactory s .close) (acts ++ [.factory n]) :=
    admits_append hadm ⟨(hpc : Enabled _ (.factory n)), trivial⟩
  refine ⟨acts ++ [Action.factory n], ⟨hen, hadm'⟩, ?_⟩
  intro hquiet
  have htrace : tr ++ (acceptor hasFactory).trace s (.close :: (acts ++ [.factory n]))
      = tr ++ (s, .close) :: ((acceptor hasFactory).trace (next hasFactory s .close) acts
        ++ (_, .factory n) :: []) :=
    congrArg (tr ++ (s, Action.close) :: ·) (trace_append acts [.factory n] _)
  obtain ⟨e, he, heq⟩ := hquiet _ _ _ _ _ n htrace hfac
  exact hstart (heq ▸ mem_of_mem_trace he)

/-- **No session after `Stop`** in every run whose `Stop`s find no handler committed when they close
the acceptor, and a `Stop` that finds one can be followed by a session. -/
theorem quiet_while_closesIdle (hasFactory : Bool) :
    (∀ tr s, (acceptor hasFactory).Run tr s → Guarded (ClosesIdle hasFactory) tr →
      QuietAfterStop hasFactory tr) ∧
    ∀ tr s, (acceptor hasFactory).Run tr s → Enabled s .close →
      ¬ClosesIdle hasFactory s .close → ∃ acts, (acceptor hasFactory).Admits s (.close :: acts) ∧
        ¬QuietAfterStop hasFactory
          (tr ++ (acceptor hasFactory).trace s (.close :: acts)) := by
  refine ⟨?_, ?_⟩
  · intro tr s hr hg
    exact quietAfterStop_of_closesIdle hr hg
  · intro tr s _ hen hno
    exact not_quietAfterStop hen hno

/-- `Start`, then `Stop` while the first accept is pending.  The accept fails. -/
def stoppedWhilePending : List Action :=
  [.start, .doAccept .caller, .asyncAccept .caller, .stop, .close,
   .complete 0 ⟨125, "Operation canceled"⟩, .handle 0 ⟨125, "Operation canceled"⟩]

theorem quiet_while_closesIdle_pending :
    QuietAfterStop true ((acceptor true).trace init stoppedWhilePending) := by
  have hadmits : (acceptor true).Admits init stoppedWhilePending := by decide
  refine (quiet_while_closesIdle true).1 _ _ (run_of_admits hadmits) ?_
  have hpending : ∀ n, ¬Committed (((acceptor true).after init
      [.start, .doAccept .caller, .asyncAccept .caller, .stop]).pc (.handler n)) := by
    rintro (_ | n) <;> simp [acceptor, next, init, State.goto]
  simpa [Guarded, System.trace, stoppedWhilePending, ClosesIdle] using hpending

/-- `Start`, and a connection that is accepted before `Stop` and handled after it. -/
def acceptedBeforeStop : List Action :=
  [.start, .doAccept .caller, .asyncAccept .caller, .complete 0 .success, .stop, .close,
   .handle 0 .success, .factory 0]

/-- `Stop` has returned and nobody calls `Start`, but `_sessionFactory` is called. -/
theorem session_after_stop :
    (acceptor true).Admits init acceptedBeforeStop ∧
      ¬QuietAfterStop true ((acceptor true).trace init acceptedBeforeStop) := by
  refine ⟨by decide, ?_⟩
  intro hquiet
  have hstep := hquiet ((acceptor true).trace init (acceptedBeforeStop.take 5))
    [(_, .handle 0 .success)] [] _ _ 0 rfl rfl
  simp at hstep

end Core.TcpAcceptor
