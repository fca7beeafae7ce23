/-
Where the accepted sockets go.

A socket exists from the moment an accept completes without an error.  Its handler holds it until
it calls `_sessionFactory`, and nothing else ever gets hold of it: so every accepted socket is
handed to the factory exactly once, or is still with its handler.  This holds for any number of
accept loops.  The order is another matter.  The handlers of two loops may be called in either
order, but a single loop starts an accept only after it has handed on the socket of the one before,
so with a single loop the factory sees the sockets in the order in which they were accepted.
-/
import Cube.Core.Network.Loops
import Cube.Core.Network.Shutdown

namespace Core.TcpAcceptor

open Library System

/-- The accept with this number completes. -/
def Action.Completes (n : Nat) : Action → Prop
  | .complete m _ => m = n
  | _ => False

/-- It completes with a socket. -/
def Action.Delivers (n : Nat) : Action → Prop
  | .complete m ec => m = n ∧ ec.failed = false
  | _ => False

instance (n : Nat) : DecidablePred (Action.Completes n)
  | .complete _ _ => inferInstanceAs (Decidable (_ = _))
  | .start | .stop | .close | .doAccept _ | .asyncAccept _ | .handle _ _ | .factory _ => isFalse id

instance (n : Nat) : DecidablePred (Action.Delivers n)
  | .complete _ _ => inferInstanceAs (Decidable (_ ∧ _))
  | .start | .stop | .close | .doAccept _ | .asyncAccept _ | .handle _ _ | .factory _ => isFalse id

instance : DecidablePred Committed
  | .ready _ => inferInstanceAs (Decidable (_ = _))
  | .factory => isTrue trivial
  | .idle | .doAccept | .asyncAccept | .close | .pending => isFalse id

/-- The accept with this number has not completed: not yet started, or with the system. -/
def Waiting (n : Nat) (s : State) : Prop := s.started ≤ n ∨ s.pc (.handler n) = .pending

/-- The socket of this accept is with its handler, on the way to the factory. -/
def State.held (s : State) (n : Nat) : Nat := if Committed (s.pc (.handler n)) then 1 else 0

/-! ### One step -/

/-- Where a handler stands after a step that starts no accept. -/
theorem pc_next {hasFactory : Bool} {s : State} {a : Action} (ha : ∀ p, a ≠ .asyncAccept p)
    (n : Nat) : (next hasFactory s a).pc (.handler n)
      = if .handler n = a.party then a.target s else s.pc (.handler n) := by
  rw [(next_move hasFactory s ha).1, Function.update_apply]

/-- Where an old handler stands after `async_accept`. -/
theorem pc_next_asyncAccept {hasFactory : Bool} {s : State} {p : Party} {n : Nat}
    (hn : n ≠ s.started) : (next hasFactory s (.asyncAccept p)).pc (.handler n)
      = if .handler n = p then .idle else s.pc (.handler n) := by
  have hne : Party.handler n ≠ .handler s.started := fun heq => hn (Party.handler.inj heq)
  show Function.update (Function.update s.pc p .idle) _ _ _ = _
  rw [Function.update_of_ne hne, Function.update_apply]

theorem target_ne_pending {s : State} {a : Action} (ha : ∀ p, a ≠ .asyncAccept p) :
    a.target s ≠ .pending := by
  cases a with
  | asyncAccept p => exact absurd rfl (ha p)
  | doAccept p => by_cases hrun : s.isRunning <;> simp [Action.target, hrun]
  | handle n ec => by_cases hec : ec.failed <;> simp [Action.target, hec]
  | _ => simp [Action.target]

/-- Nothing makes a completed accept wait again. -/
theorem waiting_of_next {hasFactory : Bool} {s : State} {a : Action} {n : Nat}
    (h : Waiting n (next hasFactory s a)) : Waiting n s := by
  by_cases ha : ∃ p, a = .asyncAccept p
  · obtain ⟨p, rfl⟩ := ha
    by_cases hn : n = s.started
    · exact .inl hn.ge
    rcases h with hle | hpc
    · exact .inl (Nat.le_of_succ_le hle)
    · rw [pc_next_asyncAccept hn] at hpc
      by_cases hp : Party.handler n = p
      · rw [if_pos hp] at hpc
        exact absurd hpc (by simp)
      · rw [if_neg hp] at hpc
        exact .inr hpc
  · have hmoves : ∀ p, a ≠ .asyncAccept p := fun p heq => ha ⟨p, heq⟩
    rcases h with hle | hpc
    · rw [(next_move _ s hmoves).2] at hle
      exact .inl hle
    · rw [pc_next hmoves] at hpc
      by_cases hp : Party.handler n = a.party
      · rw [if_pos hp] at hpc
        exact absurd hpc (target_ne_pending hmoves)
      · rw [if_neg hp] at hpc
        exact .inr hpc

/-- The steps of other handlers leave the socket of this one alone. -/
theorem sessions_other {s : State} {a : Action} {n : Nat} (ha : .handler n ≠ a.party) :
    (next true s a).sessions.count n = s.sessions.count n ∧ ¬a.Delivers n := by
  cases a with
  | doAccept p => by_cases hrun : s.isRunning <;> simp [next, hrun, State.goto, Action.Delivers]
  | handle m ec => by_cases hec : ec.failed <;> simp [next, hec, State.goto, Action.Delivers]
  | complete m ec =>
      have hne : n ≠ m := by simpa [Action.party] using ha
      simp [next, State.goto, Action.Delivers, Ne.symm hne]
  | factory m =>
      have hne : n ≠ m := by simpa [Action.party] using ha
      simp [next, Action.Delivers, Ne.symm hne]
  | _ => simp [next, State.goto, Action.Delivers]

/-- A socket that is there was with its handler or with the factory before, or has just come. -/
theorem held_next {s : State} {a : Action} (hf : Fresh s) (hen : Enabled s a) (n : Nat) :
    (next true s a).sessions.count n + (next true s a).held n
      = s.sessions.count n + s.held n + (if a.Delivers n then 1 else 0) := by
  by_cases ha : ∃ p, a = .asyncAccept p
  · obtain ⟨p, rfl⟩ := ha
    have hpc : s.pc p = .asyncAccept := hen
    have hno : ¬(Action.asyncAccept p).Delivers n := id
    have hheld : (next true s (.asyncAccept p)).held n = s.held n := by
      unfold State.held
      by_cases hn : n = s.started
      · have hidle := hf n hn.ge
        subst hn
        simp [next, hidle]
      rw [pc_next_asyncAccept hn]
      by_cases hp : Party.handler n = p
      · subst hp
        simp [hpc]
      · rw [if_neg hp]
    rw [hheld, if_neg hno]
    rfl
  have hmoves : ∀ p, a ≠ .asyncAccept p := fun p heq => ha ⟨p, heq⟩
  unfold State.held
  rw [pc_next hmoves]
  by_cases hp : Party.handler n = a.party
  · have hpc := hen.source
    rw [← hp] at hpc
    rw [if_pos hp, hpc]
    cases a with
    | asyncAccept p => exact absurd rfl (hmoves p)
    | start | stop | close => exact absurd hp (by simp [Action.party])
    | doAccept p =>
        by_cases hrun : s.isRunning <;>
          simp [next, State.goto, Action.target, Action.source, Action.Delivers, hrun]
    | complete m ec =>
        have hm : n = m := Party.handler.inj hp
        simp [next, State.goto, Action.target, Action.source, Action.Delivers, hm]
    | handle m ec =>
        by_cases hec : ec.failed = true <;>
          simp [next, State.goto, Action.target, Action.source, Action.Delivers, hec]
    | factory m =>
        have hm : n = m := Party.handler.inj hp
        simp [next, Action.target, Action.source, Action.Delivers, hm]
  · obtain ⟨hcount, hno⟩ := sessions_other (s := s) hp
    rw [if_neg hp, hcount, if_neg hno, Nat.add_zero]

/-! ### A single loop -/

/-- The accept is outstanding, or its handler has not yet called the factory. -/
def Unserved : Point → Prop
  | .pending | .ready _ | .factory => True
  | .idle | .doAccept | .asyncAccept | .close => False

theorem Unserved.alive {f : Point} (h : Unserved f) : Alive f := by
  cases f <;> first | exact h.elim | simp

/-- One accept loop; the accept that is not yet served is the last one started, and the factory has
the sockets of earlier ones, in order. -/
structure InOrder (s : State) : Prop where
  loop : Loop s
  sorted : s.sessions.Pairwise (· < ·)
  started : ∀ k ∈ s.sessions, k < s.started
  last : ∀ n, Unserved (s.pc (.handler n)) → n + 1 = s.started ∧ ∀ k ∈ s.sessions, k < n

theorem inOrder_init : InOrder init where
  loop := loop_init
  sorted := .nil
  started := by simp [init]
  last := fun _ h => h.elim

theorem inOrder_next (s : State) (a : Action) (h : InOrder s) (hen : Enabled s a)
    (hg : KeepsLoop s a) : InOrder (next true s a) := by
  have hloop : Loop (next true s a) := loop_next s a h.loop hen hg
  by_cases ha : ∃ p, a = .asyncAccept p
  · obtain ⟨p, rfl⟩ := ha
    have hpc : s.pc p = .asyncAccept := hen
    refine ⟨hloop, h.sorted, fun k hk => Nat.lt_succ_of_lt (h.started k hk), ?_⟩
    intro n hn
    by_cases hnew : n = s.started
    · exact ⟨congrArg (· + 1) hnew, fun k hk => hnew ▸ h.started k hk⟩
    · -- the party that starts the accept held the loop
      rw [pc_next_asyncAccept hnew] at hn
      by_cases hp : Party.handler n = p
      · rw [if_pos hp] at hn
        exact hn.elim
      · rw [if_neg hp] at hn
        exact absurd (h.loop.single _ _ hn.alive (by simp [hpc])) hp
  have hmoves : ∀ p, a ≠ .asyncAccept p := fun p heq => ha ⟨p, heq⟩
  have hstarted := (next_move true s hmoves).2
  have hpc := hen.source
  have hlast : ∀ n, Unserved ((next true s a).pc (.handler n)) → Unserved (s.pc (.handler n)) := by
    intro n hn
    rw [pc_next hmoves] at hn
    by_cases hp : Party.handler n = a.party
    · rw [if_pos hp] at hn
      rw [hp, hpc]
      cases a with
      | asyncAccept p => exact absurd rfl (hmoves p)
      | doAccept p => by_cases hrun : s.isRunning <;> simp [Action.target, Unserved, hrun] at hn
      | complete m ec | handle m ec | factory m => trivial
      | _ => exact hn.elim
    · rwa [if_neg hp] at hn
  by_cases hfac : ∃ n, a = .factory n
  · obtain ⟨m, rfl⟩ := hfac
    have hm : Unserved (s.pc (.handler m)) := by
      rw [show s.pc (.handler m) = .factory from hen]
      trivial
    obtain ⟨hnumber, hbefore⟩ := h.last m hm
    refine ⟨hloop, ?_, ?_, ?_⟩
    · exact List.pairwise_append.mpr ⟨h.sorted, List.pairwise_singleton ..,
        fun k hk j hj => List.mem_singleton.mp hj ▸ hbefore k hk⟩
    · intro k hk
      rcases List.mem_append.mp hk with hold | hnew
      · exact h.started k hold
      · rw [List.mem_singleton.mp hnew, hstarted]
        omega
    · intro n hn
      have hn' := hlast n hn
      obtain rfl : n = m := Party.handler.inj (h.loop.single _ _ hn'.alive hm.alive)
      rw [pc_next hmoves] at hn
      exact absurd hn (by simp [Action.party, Action.target, Unserved])
  · have hsessions : (next true s a).sessions = s.sessions := by
      cases a with
      | doAccept p => by_cases hrun : s.isRunning <;> simp [next, hrun, State.goto]
      | handle m ec => by_cases hec : ec.failed <;> simp [next, hec, State.goto]
      | factory m => exact absurd ⟨m, rfl⟩ hfac
      | _ => rfl
    refine ⟨hloop, hsessions ▸ h.sorted, ?_, ?_⟩
    · rw [hsessions, hstarted]
      exact h.started
    · intro n hn
      rw [hsessions, hstarted]
      exact h.last n (hlast n hn)

/-! ### A run -/

theorem completes_of_run {hasFactory : Bool} {tr : List (State × Action)} {s : State}
    (hr : (acceptor hasFactory).Run tr s) (n : Nat) :
    (Waiting n s → tr.countP (Action.Completes n ·.2) = 0) ∧
      tr.countP (Action.Completes n ·.2) ≤ 1 := by
  induction hr with
  | nil => simp
  | @step tr s a h hen ih =>
      rw [List.countP_append, List.countP_singleton]
      by_cases hc : a.Completes n
      · have hpending : s.pc (.handler n) = .pending := by
          cases a with
          | complete m ec =>
              obtain rfl : m = n := hc
              exact hen.1
          | _ => exact hc.elim
        have hzero := ih.1 (.inr hpending)
        refine ⟨?_, by simp [hzero, hc]⟩
        intro hwait
        cases a with
        | complete m ec =>
            obtain rfl : m = n := hc
            have hlt := (fresh_of_run h).lt (show s.pc (.handler m) ≠ .idle by simp [hpending])
            rcases hwait with hle | hpc
            · exact absurd hle (Nat.not_le_of_lt hlt)
            · exact absurd hpc (by simp [acceptor, next])
        | _ => exact hc.elim
      · simp only [hc, decide_false, Bool.false_eq_true, if_false, Nat.add_zero]
        exact ⟨fun hwait => ih.1 (waiting_of_next hwait), ih.2⟩

theorem held_of_run {tr : List (State × Action)} {s : State} (hr : (acceptor true).Run tr s)
    (n : Nat) :
    s.sessions.count n + s.held n = tr.countP (Action.Delivers n ·.2) := by
  induction hr with
  | nil => rfl
  | @step tr s a h hen ih =>
      have hstep := held_next (fresh_of_run h) hen n
      rw [List.countP_append, List.countP_singleton, ← ih]
      simp only [decide_eq_true_eq]
      exact hstep

/-- **Every accepted socket is handed to the factory once.**  In every run, with any number of
accept loops, an accept completes at most once, and a socket it brings has been handed to the
factory or is held by its handler, once in all; an accept that brings none is never handed on.
And as long as there is a single loop the factory gets the sockets in the order of their accepts. -/
theorem sockets_handed_once (tr : List (State × Action)) (s : State)
    (hr : (acceptor true).Run tr s) :
    (∀ n, tr.countP (Action.Completes n ·.2) ≤ 1 ∧
      s.sessions.count n + s.held n = tr.countP (Action.Delivers n ·.2)) ∧
    (Guarded KeepsLoop tr → s.sessions.Pairwise (· < ·)) := by
  refine ⟨fun n => ⟨(completes_of_run hr n).2, held_of_run hr n⟩, ?_⟩
  intro hg
  exact (hr.invariant_of_guarded inOrder_init inOrder_next hg).sorted

/-- Two loops, and the second accept is handled first. -/
def handledInTurn : List Action :=
  [.start, .doAccept .caller, .asyncAccept .caller, .start, .doAccept .caller,
   .asyncAccept .caller, .complete 0 .success, .complete 1 .success, .handle 1 .success,
   .factory 1, .handle 0 .success]

theorem sockets_handed_once_two :
    ∃ tr s, (acceptor true).Run tr s ∧ s.sessions = [1] ∧
      s.sessions.count 0 + s.held 0 = tr.countP (Action.Delivers 0 ·.2) := by
  have hadmits : (acceptor true).Admits init handledInTurn := by decide
  exact ⟨_, _, run_of_admits hadmits, rfl,
    ((sockets_handed_once _ _ (run_of_admits hadmits)).1 0).2⟩

end Core.TcpAcceptor
