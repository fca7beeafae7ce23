/-
When a running acceptor keeps accepting.

The accept loop is a token.  A party holds it while it is about to start an accept, while the
accept is outstanding, and while the handler runs on to the next one.  The loop survives every
step but two.  A handler that is called with an error returns and drops the token, whatever the
error was and although `_isRunning` stays true.  And `Start` makes a second token if the loop of an
earlier `Start` is still alive.  Under the condition that neither happens the token is kept for
as long as the acceptor runs; each of the two, on the other hand, leads to a state where the
acceptor runs with no accept outstanding, or with two.
-/
import Cube.Core.Network.TcpAcceptor

namespace Core.TcpAcceptor

open Library System

/-! ### The loop as a token -/

/-- An accept is outstanding: started, its handler not yet begun. -/
def Outstanding : Point → Prop
  | .pending | .ready _ => True
  | .idle | .doAccept | .asyncAccept | .close | .factory => False

/-- A call of `Start` or a handler is on its way to the next accept. -/
def InProgress : Point → Prop
  | .doAccept | .asyncAccept | .factory => True
  | .idle | .close | .pending | .ready _ => False

/-- The points that hold the token of the accept loop. -/
def Alive (f : Point) : Prop := Outstanding f ∨ InProgress f

/-- While the acceptor runs, and no `Start` and no handler is in progress, exactly one accept is
outstanding. -/
def Accepting (s : State) : Prop :=
  s.isRunning = true → (∀ p, ¬InProgress (s.pc p)) → ∃! n, Outstanding (s.pc (.handler n))

/-- The steps that keep the loop: `Start` is called when the loop of no earlier `Start` is alive,
and no handler is called with an error while the acceptor runs. -/
def KeepsLoop (s : State) : Action → Prop
  | .start => ∀ n, ¬Alive (s.pc (.handler n))
  | .handle _ ec => ec.failed = true → s.isRunning = false
  | _ => True

/-- The accept loop: one token, held by somebody as long as the acceptor runs. -/
structure Loop (s : State) : Prop where
  single : AtMostOne Alive s.pc
  running : s.isRunning = true → ∃ p, Alive (s.pc p)
  starting : Alive (s.pc .caller) → s.isRunning = true ∧ InProgress (s.pc .caller)

@[simp] theorem alive_idle : ¬Alive .idle := by simp [Alive, Outstanding, InProgress]
@[simp] theorem alive_close : ¬Alive .close := by simp [Alive, Outstanding, InProgress]
@[simp] theorem alive_doAccept : Alive .doAccept := Or.inr trivial
@[simp] theorem alive_asyncAccept : Alive .asyncAccept := Or.inr trivial
@[simp] theorem alive_factory : Alive .factory := Or.inr trivial
@[simp] theorem alive_pending : Alive .pending := Or.inl trivial
@[simp] theorem alive_ready (ec : ErrorCode) : Alive (.ready ec) := Or.inl trivial

/-- The holder moves on and keeps the token. -/
theorem Loop.goto {s : State} (h : Loop s) {p : Party} {f : Point} (hp : Alive (s.pc p))
    (hf : Alive f) (hcaller : p = .caller → InProgress f) : Loop (s.goto p f) where
  single := h.single.keep hp
  running := fun _ => ⟨p, by rw [goto_pc, Function.update_self]; exact hf⟩
  starting := by
    intro hc
    by_cases hpc : p = .caller
    · subst hpc
      exact ⟨(h.starting hp).1, by rw [goto_pc, Function.update_self]; exact hcaller rfl⟩
    · rw [goto_pc, Function.update_of_ne (Ne.symm hpc)] at hc ⊢
      exact h.starting hc

/-- The token may be dropped when the acceptor does not run. -/
theorem Loop.drop {s : State} (h : Loop s) {p : Party} {f : Point} (hf : ¬Alive f)
    (hw : s.isRunning = false) : Loop (s.goto p f) where
  single := h.single.drop hf
  running := fun hr => absurd (hw.symm.trans hr) (by simp)
  starting := by
    intro hc
    by_cases hpc : p = .caller
    · subst hpc
      rw [goto_pc, Function.update_self] at hc
      exact absurd hc hf
    · rw [goto_pc, Function.update_of_ne (Ne.symm hpc)] at hc ⊢
      exact h.starting hc

theorem loop_init : Loop init where
  single := fun _ _ ha _ => absurd ha alive_idle
  running := by simp [init]
  starting := fun hc => absurd hc alive_idle

theorem loop_next {hasFactory : Bool} (s : State) (a : Action) (h : Loop s) (hen : Enabled s a)
    (hg : KeepsLoop s a) : Loop (next hasFactory s a) := by
  cases a with
  | start =>
      have hpc : s.pc .caller = .idle := hen
      have hnone : ∀ p, ¬Alive (s.pc p) := by
        intro p
        cases p with
        | caller =>
            rw [hpc]
            exact alive_idle
        | handler n => exact hg n
      refine ⟨h.single.take hnone, fun _ => ⟨.caller, by simp [next]⟩, fun _ => ⟨rfl, ?_⟩⟩
      show InProgress (Function.update s.pc .caller .doAccept .caller)
      rw [Function.update_self]
      trivial
  | stop =>
      refine ⟨h.single.drop alive_close, by simp [next], ?_⟩
      intro hc
      exact absurd hc (by simp [next])
  | close =>
      have hpc : s.pc .caller = .close := hen
      refine ⟨h.single.drop alive_idle, fun hw => ?_, fun hc => absurd hc (by simp [next])⟩
      obtain ⟨p, hp⟩ := h.running hw
      have hne : p ≠ .caller := fun heq => by rw [heq, hpc] at hp; exact alive_close hp
      exact ⟨p, by simpa [next, Function.update_of_ne hne] using hp⟩
  | doAccept p =>
      have hpc : s.pc p = .doAccept := hen
      simp only [next]
      split
      · exact h.goto (by simp [hpc]) alive_asyncAccept fun _ => trivial
      · exact h.drop alive_idle (by simpa using ‹¬s.isRunning = true›)
  | asyncAccept p =>
      have hpc : s.pc p = .asyncAccept := hen
      have halive : Alive (s.pc p) := by simp [hpc]
      refine ⟨h.single.transfer halive alive_idle, ?_, ?_⟩
      · intro _
        exact ⟨.handler s.started, by simp [next]⟩
      intro hc
      -- the caller is not the new handler, and the one that held the token has let go
      have hc' : Alive (Function.update s.pc p .idle .caller) := by simpa [next] using hc
      rcases holds_update hc' with hidle | ⟨hne, hold⟩
      · exact absurd hidle alive_idle
      · exact absurd (h.single _ _ hold halive) hne
  | complete n ec => exact h.goto (by rw [hen.1]; exact alive_pending) (alive_ready ec) (by simp)
  | handle n ec =>
      have hpc : s.pc (.handler n) = .ready ec := hen
      simp only [next]
      split
      · exact h.drop alive_idle (hg (by assumption))
      · exact h.goto (by simp [hpc]) alive_factory (by simp)
  | factory n =>
      have hpc : s.pc (.handler n) = .factory := hen
      have hmove : Loop (s.goto (.handler n) .doAccept) :=
        h.goto (by simp [hpc]) alive_doAccept (by simp)
      exact ⟨hmove.single, hmove.running, hmove.starting⟩

theorem Loop.accepting {s : State} (h : Loop s) : Accepting s := by
  intro hw hquiet
  obtain ⟨p, hp⟩ := h.running hw
  have hout : Outstanding (s.pc p) := hp.resolve_right (hquiet p)
  cases p with
  | caller => exact absurd (h.starting hp).2 (hquiet .caller)
  | handler n =>
      refine ⟨n, hout, ?_⟩
      intro m hm
      have heq := h.single (.handler m) (.handler n) (Or.inl hm) hp
      simpa using heq

theorem loop_of_run {hasFactory : Bool} {tr : List (State × Action)} {s : State}
    (hr : (acceptor hasFactory).Run tr s) (hg : Guarded KeepsLoop tr) : Loop s :=
  hr.invariant_of_guarded loop_init loop_next hg

/-! ### A second loop

If `Start` is called while a loop is alive, both loops come to wait for an accept: the old one is
run on until its accept is outstanding, then the new one is started.
-/

/-- Handlers that were never started are idle. -/
def Fresh (s : State) : Prop := ∀ n, s.started ≤ n → s.pc (.handler n) = .idle

theorem Fresh.lt {s : State} (h : Fresh s) {n : Nat} (hn : s.pc (.handler n) ≠ .idle) :
    n < s.started := by
  by_contra hle
  exact hn (h n (Nat.le_of_not_lt hle))

theorem Fresh.goto {s : State} (h : Fresh s) {p : Party} {f : Point}
    (hp : ∀ n, p = .handler n → s.pc p ≠ .idle) : Fresh (s.goto p f) := by
  intro n hn
  have hne : Party.handler n ≠ p := fun heq => hp n heq.symm (heq ▸ h n hn)
  rw [goto_pc, Function.update_of_ne hne]
  exact h n hn

theorem Fresh.asyncAccept (hasFactory : Bool) {s : State} (h : Fresh s) {p : Party}
    (hen : Enabled s (.asyncAccept p)) : Fresh (next hasFactory s (.asyncAccept p)) := by
  have hpc : s.pc p = .asyncAccept := hen
  intro n hn
  have hidle : Fresh (s.goto p .idle) := h.goto fun _ _ => by simp [hpc]
  have hn' : s.started + 1 ≤ n := hn
  have hne : Party.handler n ≠ .handler s.started := by simp; omega
  exact (Function.update_of_ne hne .pending _).trans (hidle n (Nat.le_of_succ_le hn'))

theorem fresh_next {hasFactory : Bool} (s : State) (a : Action) (h : Fresh s)
    (hen : Enabled s a) : Fresh (next hasFactory s a) := by
  cases a with
  | start => exact h.goto (p := .caller) (f := .doAccept) (by simp)
  | stop => exact h.goto (p := .caller) (f := .close) (by simp)
  | close => exact h.goto (p := .caller) (f := .idle) (by simp)
  | doAccept p =>
      have hpc : s.pc p = .doAccept := hen
      simp only [next]
      split
      · exact h.goto fun _ _ => by simp [hpc]
      · exact h.goto fun _ _ => by simp [hpc]
  | asyncAccept p => exact h.asyncAccept hasFactory hen
  | complete n ec => exact h.goto fun _ _ => by rw [hen.1]; simp
  | handle n ec =>
      have hpc : s.pc (.handler n) = .ready ec := hen
      simp only [next]
      split
      · exact h.goto fun _ _ => by simp [hpc]
      · exact h.goto fun _ _ => by simp [hpc]
  | factory n =>
      have hpc : s.pc (.handler n) = .factory := hen
      exact h.goto (p := .handler n) (f := .doAccept) fun _ _ => by simp [hpc]

theorem fresh_of_run {hasFactory : Bool} {tr : List (State × Action)} {s : State}
    (hr : (acceptor hasFactory).Run tr s) : Fresh s :=
  hr.invariant (fun _ _ => rfl) fresh_next

/-- `Start` is at the head of `DoAccept` while handler `n` is alive, and no other handler is. -/
structure Second (s : State) (n : Nat) : Prop where
  running : s.isRunning = true
  caller : s.pc .caller = .doAccept
  alive : Alive (s.pc (.handler n))
  alone : ∀ m, m ≠ n → ¬Alive (s.pc (.handler m))
  fresh : Fresh s

theorem Second.lt {s : State} {n : Nat} (h : Second s n) : n < s.started :=
  h.fresh.lt fun hidle => alive_idle (hidle ▸ h.alive)

theorem second_start {hasFactory : Bool} {s : State} {n : Nat} (hl : Loop s) (hf : Fresh s)
    (hn : Alive (s.pc (.handler n))) : Second (next hasFactory s .start) n where
  running := rfl
  caller := by simp [next]
  alive := by simpa [next] using hn
  alone := by
    intro m hne hm
    have hm' : Alive (s.pc (.handler m)) := by simpa [next] using hm
    exact hne (by simpa using hl.single _ _ hm' hn)
  fresh := hf.goto (p := .caller) (f := .doAccept) (by simp)

/-- The old loop moves on. -/
theorem Second.goto {s : State} {n : Nat} (h : Second s n) {f : Point} (hf : Alive f) :
    Second (s.goto (.handler n) f) n where
  running := h.running
  caller := by simpa using h.caller
  alive := by simpa using hf
  alone := by
    intro m hne hm
    have hne' : Party.handler m ≠ .handler n := by simpa using hne
    rw [goto_pc, Function.update_of_ne hne'] at hm
    exact h.alone m hne hm
  fresh := h.fresh.goto fun _ _ hidle => alive_idle (hidle ▸ h.alive)

/-- The old loop starts its next accept. -/
theorem Second.asyncAccept (hasFactory : Bool) {s : State} {n : Nat} (h : Second s n)
    (hpc : s.pc (.handler n) = .asyncAccept) :
    Second (next hasFactory s (.asyncAccept (.handler n))) s.started where
  running := h.running
  caller := by simpa [next] using h.caller
  alive := by simp [next]
  alone := by
    intro m hne hm
    have hne' : Party.handler m ≠ .handler s.started := by simpa using hne
    have hm' : Alive (Function.update s.pc (.handler n) .idle (.handler m)) := by
      simpa [next, Function.update_of_ne hne'] using hm
    rcases holds_update hm' with hidle | ⟨hmn, hold⟩
    · exact absurd hidle alive_idle
    · exact h.alone m (by simpa using hmn) hold
  fresh := h.fresh.asyncAccept hasFactory hpc

/-- Without the caller, the old loop can be run on until its accept is outstanding. -/
def Settles (hasFactory : Bool) (s : State) : Prop :=
  ∃ acts n, (acceptor hasFactory).Admits s acts ∧
    Second ((acceptor hasFactory).after s acts) n ∧
    Outstanding (((acceptor hasFactory).after s acts).pc (.handler n))

theorem Settles.step {hasFactory : Bool} {s : State} {a : Action} (hen : Enabled s a)
    (h : Settles hasFactory (next hasFactory s a)) : Settles hasFactory s := by
  obtain ⟨acts, n, hadm, hsec, hout⟩ := h
  exact ⟨a :: acts, n, ⟨hen, hadm⟩, hsec, hout⟩

theorem settles_of_outstanding {hasFactory : Bool} {s : State} {n : Nat} (h : Second s n)
    (hout : Outstanding (s.pc (.handler n))) : Settles hasFactory s :=
  ⟨[], n, trivial, h, hout⟩

theorem settles_of_asyncAccept {hasFactory : Bool} {s : State} {n : Nat} (h : Second s n)
    (hpc : s.pc (.handler n) = .asyncAccept) : Settles hasFactory s := by
  have hsec := h.asyncAccept hasFactory hpc
  refine Settles.step (a := .asyncAccept (.handler n)) hpc (settles_of_outstanding hsec ?_)
  simp [next, Outstanding]

theorem settles_of_doAccept {hasFactory : Bool} {s : State} {n : Nat} (h : Second s n)
    (hpc : s.pc (.handler n) = .doAccept) : Settles hasFactory s := by
  have hnext : next hasFactory s (.doAccept (.handler n)) = s.goto (.handler n) .asyncAccept := by
    simp [next, h.running]
  refine Settles.step (a := .doAccept (.handler n)) hpc ?_
  rw [hnext]
  exact settles_of_asyncAccept (h.goto alive_asyncAccept) (by simp)

theorem second_settles (hasFactory : Bool) {s : State} {n : Nat} (h : Second s n) :
    Settles hasFactory s := by
  -- backwards along the handler's code: each point is one step before the next
  cases hpc : s.pc (.handler n) with
  | pending => exact settles_of_outstanding h (by rw [hpc]; trivial)
  | ready ec => exact settles_of_outstanding h (by rw [hpc]; trivial)
  | asyncAccept => exact settles_of_asyncAccept h hpc
  | doAccept => exact settles_of_doAccept h hpc
  | factory =>
      have hmove := h.goto alive_doAccept
      have hsec : Second (next hasFactory s (.factory n)) n :=
        ⟨hmove.running, hmove.caller, hmove.alive, hmove.alone, hmove.fresh⟩
      exact Settles.step (a := .factory n) hpc (settles_of_doAccept hsec (by simp [next]))
  | idle => exact absurd (hpc ▸ h.alive) alive_idle
  | close => exact absurd (hpc ▸ h.alive) alive_close

/-- Then `Start` goes on, and two accepts are outstanding. -/
theorem second_not_accepting (hasFactory : Bool) {s : State} {n : Nat} (h : Second s n)
    (hout : Outstanding (s.pc (.handler n))) :
    (acceptor hasFactory).Admits s [.doAccept .caller, .asyncAccept .caller] ∧
      ¬Accepting ((acceptor hasFactory).after s [.doAccept .caller, .asyncAccept .caller]) := by
  have hcaller := h.caller
  have hlt := h.lt
  have hne : Party.handler n ≠ .handler s.started := by simp; omega
  set s' := (acceptor hasFactory).after s [.doAccept .caller, .asyncAccept .caller] with hs'
  have hpc' : s'.pc = Function.update
      (Function.update (Function.update s.pc .caller .asyncAccept) .caller .idle)
      (.handler s.started) .pending := by
    simp [hs', acceptor, next, h.running]
  have hrun' : s'.isRunning = true := by simp [hs', acceptor, next, h.running]
  have hold : ∀ m, m ≠ s.started → s'.pc (.handler m) = s.pc (.handler m) := by
    intro m hm
    have hm' : Party.handler m ≠ .handler s.started := by simpa using hm
    simp [hpc', Function.update_of_ne hm']
  refine ⟨⟨hcaller, ?_, trivial⟩, fun hacc => ?_⟩
  · show ((acceptor hasFactory).next s (.doAccept .caller)).pc .caller = .asyncAccept
    simp [acceptor, next, h.running]
  · have hquiet : ∀ p, ¬InProgress (s'.pc p) := by
      intro p
      cases p with
      | caller => simp [hpc', InProgress]
      | handler m =>
          by_cases hm : m = s.started
          · simp [hpc', hm, InProgress]
          · rw [hold m hm]
            by_cases hmn : m = n
            · subst hmn
              intro hprog
              revert hout hprog
              cases s.pc (.handler m) <;> simp [Outstanding, InProgress]
            · exact fun hprog => h.alone m hmn (Or.inr hprog)
    obtain ⟨k, -, huniq⟩ := hacc hrun' hquiet
    have h1 := huniq n (by show Outstanding (s'.pc _); rw [hold n (by omega)]; exact hout)
    have h2 := huniq s.started (by simp [hpc', Outstanding])
    omega

/-- A handler that is called with an error while the acceptor runs leaves nobody in the loop. -/
theorem not_accepting_of_error {hasFactory : Bool} {s : State} {n : Nat} {ec : ErrorCode}
    (h : Loop s) (hen : Enabled s (.handle n ec)) (hec : ec.failed = true)
    (hw : s.isRunning = true) : ¬Accepting (next hasFactory s (.handle n ec)) := by
  have hpc : s.pc (.handler n) = .ready ec := hen
  have hnext : next hasFactory s (.handle n ec) = s.goto (.handler n) .idle := by simp [next, hec]
  have hnone : ∀ p, ¬Alive ((s.goto (.handler n) .idle).pc p) := by
    intro p hp
    rcases holds_update hp with hidle | ⟨hne, hold⟩
    · exact alive_idle hidle
    · exact hne (h.single _ _ hold (by simp [hpc]))
  rw [hnext]
  intro hacc
  obtain ⟨m, hm, -⟩ := hacc hw fun p hp => hnone p (Or.inr hp)
  exact hnone _ (Or.inl hm)

/-- Any step that does not keep the loop leads to a state that is not accepting. -/
theorem not_accepting_of_not_keepsLoop {hasFactory : Bool} {s : State} {a : Action} (hl : Loop s)
    (hf : Fresh s) (hen : Enabled s a) (hno : ¬KeepsLoop s a) :
    ∃ acts, (acceptor hasFactory).Admits (next hasFactory s a) acts ∧
      ¬Accepting ((acceptor hasFactory).after (next hasFactory s a) acts) := by
  cases a with
  | start =>
      obtain ⟨n, hn⟩ : ∃ n, Alive (s.pc (.handler n)) := by
        simpa only [KeepsLoop, not_forall, not_not] using hno
      obtain ⟨acts, m, hadm, hsec, hout⟩ :=
        second_settles hasFactory (second_start hl hf hn)
      obtain ⟨hadm', hnot⟩ := second_not_accepting hasFactory hsec hout
      refine ⟨acts ++ [.doAccept .caller, .asyncAccept .caller], admits_append hadm hadm', ?_⟩
      rwa [after_append]
  | handle n ec =>
      have hboth : ec.failed = true ∧ s.isRunning = true := by simpa [KeepsLoop] using hno
      exact ⟨[], trivial, not_accepting_of_error hl hen hboth.1 hboth.2⟩
  | stop => exact absurd trivial hno
  | close => exact absurd trivial hno
  | doAccept p => exact absurd trivial hno
  | asyncAccept p => exact absurd trivial hno
  | complete n ec => exact absurd trivial hno
  | factory n => exact absurd trivial hno

/-- **A running acceptor keeps accepting** as long as every step keeps the loop, and any step that
does not can be followed by steps after which it no longer does. -/
theorem accepting_while_keepsLoop (hasFactory : Bool) :
    (∀ tr s, (acceptor hasFactory).Run tr s → Guarded KeepsLoop tr → Accepting s) ∧
      ∀ tr s a, (acceptor hasFactory).Run tr s → Guarded KeepsLoop tr → Enabled s a →
        ¬KeepsLoop s a → ∃ acts, (acceptor hasFactory).Admits (next hasFactory s a) acts ∧
          ¬Accepting ((acceptor hasFactory).after (next hasFactory s a) acts) := by
  refine ⟨?_, ?_⟩
  · intro tr s hr hg
    exact (loop_of_run hr hg).accepting
  · intro tr s a hr hg hen hno
    exact not_accepting_of_not_keepsLoop (loop_of_run hr hg) (fresh_of_run hr) hen hno

/-- `Start`, one connection, and the accept for the next one. -/
def oneConnection : List Action :=
  [.start, .doAccept .caller, .asyncAccept .caller, .complete 0 .success, .handle 0 .success,
   .factory 0, .doAccept (.handler 0), .asyncAccept (.handler 0)]

theorem accepting_while_keepsLoop_oneConnection :
    Accepting ((acceptor true).after init oneConnection) := by
  have hadmits : (acceptor true).Admits init oneConnection := by decide
  refine (accepting_while_keepsLoop true).1 _ _ (run_of_admits hadmits) ?_
  simp [Guarded, System.trace, oneConnection, KeepsLoop, acceptor, init, ErrorCode.failed,
    ErrorCode.success]

/-- `Start`, and a first accept that meets a temporary shortage of descriptors. -/
def descriptorShortage : List Action :=
  [.start, .doAccept .caller, .asyncAccept .caller, .complete 0 ⟨24, "Too many open files"⟩,
   .handle 0 ⟨24, "Too many open files"⟩]

/-- The handler has returned, `_isRunning` is still true although nobody called `Stop`, nothing is
in progress, and nothing is outstanding. -/
theorem accept_error_ends_loop :
    (acceptor true).Admits init descriptorShortage ∧ Action.stop ∉ descriptorShortage ∧
      ¬Accepting ((acceptor true).after init descriptorShortage) := by
  refine ⟨by decide, by decide, ?_⟩
  intro hacc
  have hnone : ∀ p, ¬Alive (((acceptor true).after init descriptorShortage).pc p) := by
    rintro (_ | _ | n) <;>
      simp [descriptorShortage, acceptor, next, init, State.goto, ErrorCode.failed]
  obtain ⟨n, hn, -⟩ := hacc (by decide) fun p hp => hnone p (Or.inr hp)
  exact hnone _ (Or.inl hn)

end Core.TcpAcceptor
