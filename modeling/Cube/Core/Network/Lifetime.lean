/-
When an acceptor may be destroyed.

The handler of an accept has captured `this`, and nothing keeps the acceptor alive until it has been
called.  The destructor closes the socket, and the accepts that are outstanding complete with an
error, with which a handler returns before it touches a member.  An accept that succeeded before is
another matter: its handler goes on to `_sessionFactory` and to `DoAccept`, of an acceptor that is
gone.  So an acceptor may be destroyed exactly when no handler has a success still before it or is
at work, whether `Stop` was called or not.  After a `Stop` every run can be brought to such a state.
-/
import Cube.Core.Network.Loops

namespace Core.TcpAcceptor

open Library System

/-- `~TcpAcceptor`: with `_acceptor` the outstanding accepts are cancelled. -/
def destroy (s : State) : State := { s with isOpen := false }

/-- The step reads or calls a member. -/
def Action.Touches : Action → Prop
  | .start | .stop | .close | .doAccept _ | .asyncAccept _ | .factory _ => True
  | .complete _ _ | .handle _ _ => False

/-- Once the acceptor is destroyed nobody calls `Start` or `Stop`, and none of the steps that are
still made touches it. -/
def SafeToDestroy (hasFactory : Bool) (s : State) : Prop :=
  ∀ acts, ((acceptor hasFactory).restrict Action.OfLoop).Admits (destroy s) acts →
    ∀ a ∈ acts, ¬a.Touches

/-- The handler at this point goes on to a member of the acceptor. -/
def Bound : Point → Prop
  | .ready ec => ec.failed = false
  | .factory | .doAccept | .asyncAccept => True
  | .idle | .close | .pending => False

/-- A destroyed acceptor that nobody goes on to. -/
structure Gone (s : State) : Prop where
  closed : s.isOpen = false
  caller : s.pc .caller = .idle
  free : ∀ n, ¬Bound (s.pc (.handler n))

theorem Gone.goto {s : State} (h : Gone s) {n : Nat} {f : Point} (hf : ¬Bound f) :
    Gone (s.goto (.handler n) f) where
  closed := h.closed
  caller := by
    rw [goto_pc, Function.update_of_ne (by simp)]
    exact h.caller
  free := by
    intro m hm
    rcases holds_update hm with hbound | ⟨-, hold⟩
    · exact hf hbound
    · exact h.free m hold

/-- It stays one, and no step touches it. -/
theorem gone_next (hasFactory : Bool) {s : State} {a : Action} (h : Gone s)
    (hen : Enabled s a) (ha : a.OfLoop) : Gone (next hasFactory s a) ∧ ¬a.Touches := by
  have hfree : ∀ p, ¬Bound (s.pc p) := by
    intro p
    cases p with
    | caller =>
        rw [h.caller]
        exact id
    | handler n => exact h.free n
  cases a with
  | start | stop | close => exact ha.elim
  | doAccept p =>
      have hno := hfree p
      rw [show s.pc p = .doAccept from hen] at hno
      exact absurd trivial hno
  | asyncAccept p =>
      have hno := hfree p
      rw [show s.pc p = .asyncAccept from hen] at hno
      exact absurd trivial hno
  | complete n ec =>
      -- the acceptor is closed, so the completion can only be an error
      have hec : ec.failed = true := hen.2.resolve_left (by simp [h.closed])
      exact ⟨h.goto (by simp [Bound, hec]), id⟩
  | handle n ec =>
      have hpc : s.pc (.handler n) = .ready ec := hen
      have hec : ec.failed = true := by
        have hno := hfree (.handler n)
        rw [hpc] at hno
        simpa [Bound] using hno
      simp only [next, hec, if_true]
      exact ⟨h.goto id, id⟩
  | factory n =>
      have hno := hfree (.handler n)
      rw [show s.pc (.handler n) = .factory from hen] at hno
      exact absurd trivial hno

theorem Gone.untouched {hasFactory : Bool} {acts : List Action} :
    ∀ {s : State}, Gone s → ((acceptor hasFactory).restrict Action.OfLoop).Admits s acts →
      ∀ a ∈ acts, ¬a.Touches := by
  induction acts with
  | nil => intro s _ _ a ha; exact absurd ha List.not_mem_nil
  | cons b rest ih =>
      intro s h hadm a ha
      obtain ⟨⟨hen, hloop⟩, hrest⟩ := hadm
      obtain ⟨hnext, hno⟩ := gone_next hasFactory h hen hloop
      rcases List.mem_cons.mp ha with rfl | hmem
      · exact hno
      · exact ih hnext hrest a hmem

/-- A handler that is bound for the acceptor gets there in at most two steps of its own. -/
theorem bound_touches (hasFactory : Bool) {s : State} {n : Nat} (h : Bound (s.pc (.handler n))) :
    ∃ acts, ((acceptor hasFactory).restrict Action.OfLoop).Admits s acts ∧
      ∃ a ∈ acts, a.Touches := by
  cases hpc : s.pc (.handler n) with
  | ready ec =>
      have hec : ec.failed = false := by
        rw [hpc] at h
        exact h
      refine ⟨[.handle n ec, .factory n], ⟨⟨hpc, trivial⟩, ⟨?_, trivial⟩, trivial⟩, .factory n, ?_⟩
      · show (next hasFactory s (.handle n ec)).pc (.handler n) = .factory
        simp [next, hec]
      · exact ⟨by simp, trivial⟩
  | factory => exact ⟨[.factory n], ⟨⟨hpc, trivial⟩, trivial⟩, .factory n, by simp, trivial⟩
  | doAccept =>
      exact ⟨[.doAccept (.handler n)], ⟨⟨hpc, trivial⟩, trivial⟩, _, List.mem_cons_self, trivial⟩
  | asyncAccept =>
      exact ⟨[.asyncAccept (.handler n)], ⟨⟨hpc, trivial⟩, trivial⟩, _, List.mem_cons_self, trivial⟩
  | idle | close | pending =>
      rw [hpc] at h
      exact h.elim

/-! ### The condition -/

/-- The steps of the loops leave an idle caller where it is. -/
theorem caller_next (hasFactory : Bool) {s : State} {a : Action} (h : s.pc .caller = .idle)
    (hen : Enabled s a) (ha : a.OfLoop) : (next hasFactory s a).pc .caller = .idle := by
  have hparty : Party.caller ≠ a.party := by
    intro heq
    have hsource := hen.source
    rw [← heq, h] at hsource
    cases a <;> simp [Action.source, Action.OfLoop] at hsource ha
  by_cases hacc : ∃ p, a = .asyncAccept p
  · obtain ⟨p, rfl⟩ := hacc
    have hp : Party.caller ≠ p := hparty
    simp [next, Function.update_of_ne hp, h]
  · rw [(next_move hasFactory s fun p heq => hacc ⟨p, heq⟩).1, Function.update_of_ne hparty]
    exact h

theorem caller_after (hasFactory : Bool) {acts : List Action} :
    ∀ {s : State}, s.pc .caller = .idle → (acceptor hasFactory).Admits s acts →
      (∀ a ∈ acts, a.OfLoop) → ((acceptor hasFactory).after s acts).pc .caller = .idle := by
  induction acts with
  | nil => intro s h _ _; exact h
  | cons b rest ih =>
      intro s h hadm hall
      have hnext := caller_next hasFactory h hadm.1 (hall b List.mem_cons_self)
      exact ih hnext hadm.2 fun a ha => hall a (List.mem_cons_of_mem b ha)

/-- Without a loop no handler goes on to the acceptor. -/
theorem Ending.not_bound {s : State} (h : Ending s) (hloops : s.loops = 0) (n : Nat) :
    ¬Bound (s.pc (.handler n)) := by
  have hzero := h.weight_eq_zero hloops (.handler n)
  cases hpc : s.pc (.handler n) with
  | idle | close | pending => exact id
  | ready ec | factory | doAccept | asyncAccept =>
      rw [hpc] at hzero
      exact absurd hzero (by simp [loopWeight])

/-- The condition is exact. -/
theorem safe_iff (hasFactory : Bool) {s : State} (hidle : s.pc .caller = .idle) :
    SafeToDestroy hasFactory s ↔ ∀ n, ¬Bound (s.pc (.handler n)) := by
  refine ⟨?_, ?_⟩
  · intro hsafe n hbound
    obtain ⟨acts, hadm, a, hmem, htouches⟩ :=
      bound_touches hasFactory (s := destroy s) (n := n) hbound
    exact hsafe acts hadm a hmem htouches
  · intro hfree acts hadm
    have hgone : Gone (destroy s) := ⟨rfl, hidle, hfree⟩
    exact hgone.untouched hadm

/-- **When an acceptor may be destroyed.**  In every run, between two calls of the thread that owns
it, the acceptor may be destroyed exactly when no handler goes on to one of its members.  Once it
is closed the loops can be brought there by their own steps. -/
theorem destroy_safe (hasFactory : Bool) (tr : List (State × Action)) (s : State)
    (hr : (acceptor hasFactory).Run tr s) (hidle : s.pc .caller = .idle) :
    (SafeToDestroy hasFactory s ↔ ∀ n, ¬Bound (s.pc (.handler n))) ∧
    (s.isOpen = false → ∃ acts, (acceptor hasFactory).Admits s acts ∧
      (∀ a ∈ acts, a.OfLoop) ∧ ((acceptor hasFactory).after s acts).pc .caller = .idle ∧
      SafeToDestroy hasFactory ((acceptor hasFactory).after s acts)) := by
  refine ⟨safe_iff hasFactory hidle, ?_⟩
  intro hclosed
  obtain ⟨acts, hadm, hall, hend, hloops⟩ := (ending_of_run hr hclosed).reaches hasFactory
  have hidle' := caller_after hasFactory hidle hadm hall
  refine ⟨acts, hadm, hall, hidle', ?_⟩
  exact (safe_iff hasFactory hidle').mpr (hend.not_bound hloops)

/-- An accept succeeds, and `Stop` returns before its handler is called. -/
def stoppedLate : List Action :=
  [.start, .doAccept .caller, .asyncAccept .caller, .complete 0 ⟨0, "Success"⟩, .stop, .close]

/-- `Stop` has returned, and the acceptor may not be destroyed yet. -/
theorem destroy_safe_late :
    ¬SafeToDestroy true ((acceptor true).after init stoppedLate) ∧
    ∃ acts, (acceptor true).Admits ((acceptor true).after init stoppedLate) acts ∧
      SafeToDestroy true
        ((acceptor true).after ((acceptor true).after init stoppedLate) acts) := by
  have hadmits : (acceptor true).Admits init stoppedLate := by decide
  obtain ⟨hiff, hreach⟩ := destroy_safe true _ _ (run_of_admits hadmits) (by decide)
  obtain ⟨acts, hadm, -, -, hsafe⟩ := hreach (by decide)
  refine ⟨?_, acts, hadm, hsafe⟩
  intro hsafe'
  exact hiff.mp hsafe' 0 (show ErrorCode.failed ⟨0, "Success"⟩ = false from rfl)

end Core.TcpAcceptor
