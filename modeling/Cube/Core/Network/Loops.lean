/-
How many accept loops there are, and when they end.

Nothing in `TcpAcceptor` counts its loops.  `Start` begins one whether or not another is alive, and
a loop ends in one of two places: at the head of `DoAccept` with the flag clear, and in a handler
called with an error.  That is all, so the loops that are alive are the `Start`s less the ends, in
every run.  Once `Stop` has closed the acceptor every loop is on its way to one of the two places,
even if `Start` is called again: the accepts that are left fail.  So the handlers have a bounded
number of steps left, and the `io_context` runs out of work.
-/
import Cube.Library.Tally
import Cube.Core.Network.AcceptLoop

namespace Core.TcpAcceptor

open Library System

/-! ### Tallies over the parties -/

/-- The caller, and the handlers that were started. -/
def State.parties (s : State) : Finset Party :=
  insert .caller ((Finset.range s.started).image .handler)

def State.tally (s : State) (w : Point → Nat) : Nat := Library.tally s.parties w s.pc

theorem mem_parties {s : State} {p : Party} :
    p ∈ s.parties ↔ ∀ n, p = .handler n → n < s.started := by
  unfold State.parties
  cases p <;> simp

theorem Fresh.mem_parties {s : State} (h : Fresh s) {p : Party} (hp : s.pc p ≠ .idle) :
    p ∈ s.parties := by
  rw [TcpAcceptor.mem_parties]
  intro n hn
  subst hn
  exact h.lt hp

/-- The party that makes a step. -/
def Action.party : Action → Party
  | .start | .stop | .close => .caller
  | .doAccept p | .asyncAccept p => p
  | .complete n _ | .handle n _ | .factory n => .handler n

/-- The point it is made at. -/
def Action.source : Action → Point
  | .start | .stop => .idle
  | .close => .close
  | .doAccept _ => .doAccept
  | .asyncAccept _ => .asyncAccept
  | .complete _ _ => .pending
  | .handle _ ec => .ready ec
  | .factory _ => .factory

/-- Where the chain goes on; from `async_accept` that is with the new handler. -/
def Action.target (s : State) : Action → Point
  | .start => .doAccept
  | .stop => .close
  | .close => .idle
  | .doAccept _ => if s.isRunning then .asyncAccept else .idle
  | .asyncAccept _ => .pending
  | .complete _ ec => .ready ec
  | .handle _ ec => if ec.failed then .idle else .factory
  | .factory _ => .doAccept

theorem Enabled.source {s : State} {a : Action} (hen : Enabled s a) : s.pc a.party = a.source := by
  cases a with
  | complete n ec => exact hen.1
  | _ => exact hen

/-- Every step but one moves its party and starts no handler. -/
theorem next_move (hasFactory : Bool) (s : State) {a : Action} (ha : ∀ p, a ≠ .asyncAccept p) :
    (next hasFactory s a).pc = Function.update s.pc a.party (a.target s) ∧
      (next hasFactory s a).started = s.started := by
  cases a with
  | asyncAccept p => exact absurd rfl (ha p)
  | doAccept p => by_cases hrun : s.isRunning <;> simp [next, Action.party, Action.target, hrun]
  | handle n ec => by_cases hec : ec.failed <;> simp [next, Action.party, Action.target, hec]
  | _ => exact ⟨rfl, rfl⟩

/-- A step changes a tally by the weights of its two points. -/
theorem tally_next (hasFactory : Bool) {s : State} {a : Action} (hf : Fresh s)
    (hen : Enabled s a) {w : Point → Nat} (hidle : w .idle = 0) :
    (next hasFactory s a).tally w + w a.source = s.tally w + w (a.target s) := by
  have hpc := hen.source
  by_cases ha : ∃ p, a = .asyncAccept p
  · obtain ⟨p, rfl⟩ := ha
    have hp : p ∈ s.parties := hf.mem_parties (by rw [show s.pc p = .asyncAccept from hen]; simp)
    have hnew : Party.handler s.started ∉ s.parties := by
      rw [mem_parties]
      exact fun hlt => absurd (hlt _ rfl) (Nat.lt_irrefl _)
    have hparties : (next hasFactory s (.asyncAccept p)).parties
        = insert (.handler s.started) s.parties := by
      unfold State.parties
      rw [show (next hasFactory s (.asyncAccept p)).started = s.started + 1 from rfl,
        Finset.range_add_one, Finset.image_insert, Finset.insert_comm]
    have hmove := tally_update w s.pc hp .idle
    have hjoin := tally_insert w (Function.update s.pc p .idle) hnew .pending
    have hgoal : (next hasFactory s (.asyncAccept p)).tally w
        = Library.tally (insert (.handler s.started) s.parties) w
          (Function.update (Function.update s.pc p .idle) (.handler s.started) .pending) := by
      unfold State.tally
      rw [hparties]
      rfl
    rw [show s.pc p = .asyncAccept from hen] at hmove
    unfold State.tally at hgoal ⊢
    simp only [Action.source, Action.target]
    omega
  · have hmoves : ∀ p, a ≠ .asyncAccept p := fun p heq => ha ⟨p, heq⟩
    obtain ⟨hpc', hstarted⟩ := next_move hasFactory s hmoves
    have hparties : (next hasFactory s a).parties = s.parties := by
      unfold State.parties
      rw [hstarted]
    have hp : a.party ∈ s.parties := by
      rw [mem_parties]
      intro n hn
      apply hf.lt
      rw [← hn, hpc]
      cases a <;> simp [Action.party, Action.source] at hn ⊢
    unfold State.tally
    rw [hparties, hpc', ← hpc]
    exact tally_update w s.pc hp _

/-! ### The ledger of the loops -/

/-- One for each point that holds a loop. -/
def loopWeight : Point → Nat
  | .idle | .close => 0
  | .doAccept | .asyncAccept | .pending | .ready _ | .factory => 1

/-- The accept loops that are alive. -/
def State.loops (s : State) : Nat := s.tally loopWeight

/-- A call of `Start`. -/
def Action.Starts (a : Action) : Prop := a = .start

instance : DecidablePred Action.Starts := fun a => inferInstanceAs (Decidable (a = .start))

/-- A step that ends a loop. -/
def Ends (e : State × Action) : Prop :=
  match e.2 with
  | .doAccept _ => e.1.isRunning = false
  | .handle _ ec => ec.failed = true
  | _ => False

instance : DecidablePred Ends
  | (_, .doAccept _) | (_, .handle _ _) => inferInstanceAs (Decidable (_ = _))
  | (_, .start) | (_, .stop) | (_, .close) | (_, .asyncAccept _) | (_, .complete _ _)
  | (_, .factory _) => inferInstanceAs (Decidable False)

/-- A step that is neither keeps the loop it belongs to, or belongs to none. -/
theorem loopWeight_target (s : State) (a : Action) :
    loopWeight (a.target s) + (if Ends (s, a) then 1 else 0)
      = loopWeight a.source + (if a.Starts then 1 else 0) := by
  cases a with
  | doAccept p =>
      by_cases hrun : s.isRunning = true
      · simp [Action.target, Action.source, Action.Starts, Ends, loopWeight, hrun]
      · simp [Action.target, Action.source, Action.Starts, Ends, loopWeight, hrun]
  | handle n ec =>
      by_cases hec : ec.failed = true
      · simp [Action.target, Action.source, Action.Starts, Ends, loopWeight, hec]
      · simp [Action.target, Action.source, Action.Starts, Ends, loopWeight, hec]
  | _ => simp [Action.target, Action.source, Action.Starts, Ends, loopWeight]

/-- **The loops that are alive are the `Start`s less the ends**, in every run. -/
theorem loops_add_ended (hasFactory : Bool) (tr : List (State × Action)) (s : State)
    (hr : (acceptor hasFactory).Run tr s) :
    s.loops + tr.countP (Ends ·) = tr.countP (Action.Starts ·.2) := by
  induction hr with
  | nil => rfl
  | @step tr s a h hen ih =>
      have hstep := tally_next hasFactory (fresh_of_run h) hen
        (show loopWeight .idle = 0 from rfl)
      have hweights := loopWeight_target s a
      rw [List.countP_append, List.countP_append, List.countP_singleton, List.countP_singleton]
      simp only [decide_eq_true_eq]
      unfold State.loops at ih ⊢
      show State.tally (next hasFactory s a) loopWeight + _ = _
      omega

/-- Two `Start`s, and the accept of the first fails. -/
def failedOnce : List Action :=
  [.start, .doAccept .caller, .asyncAccept .caller, .start, .doAccept .caller,
   .asyncAccept .caller, .complete 0 ⟨24, "Too many open files"⟩,
   .handle 0 ⟨24, "Too many open files"⟩]

theorem loops_add_ended_once :
    ((acceptor true).after init failedOnce).loops
      + ((acceptor true).trace init failedOnce).countP (Ends ·)
      = ((acceptor true).trace init failedOnce).countP (Action.Starts ·.2) := by
  have hadmits : (acceptor true).Admits init failedOnce := by decide
  exact loops_add_ended true _ _ (run_of_admits hadmits)

/-! ### The end of the loops -/

/-- A step of a handler, of `DoAccept` or of the system below asio. -/
def Action.OfLoop : Action → Prop
  | .start | .stop | .close => False
  | .doAccept _ | .asyncAccept _ | .complete _ _ | .handle _ _ | .factory _ => True

instance : DecidablePred Action.OfLoop
  | .start | .stop | .close => isFalse id
  | .doAccept _ | .asyncAccept _ | .complete _ _ | .handle _ _ | .factory _ => isTrue trivial

/-- How many steps a loop on a closed acceptor still has. -/
def endRank : Point → Nat
  | .idle | .close => 0
  | .ready ec => if ec.failed then 1 else 6
  | .pending => 2
  | .asyncAccept => 3
  | .doAccept => 4
  | .factory => 5

theorem endRank_le (f : Point) : endRank f ≤ 6 * loopWeight f := by
  cases f with
  | ready ec => by_cases hec : ec.failed = true <;> simp [endRank, loopWeight, hec]
  | _ => simp [endRank, loopWeight]

/-- On a closed acceptor an accept fails, so no step of a loop leads back. -/
theorem endRank_target {s : State} {a : Action} (hclosed : s.isOpen = false)
    (hen : Enabled s a) :
    endRank (a.target s) + (if a.OfLoop then 1 else 0)
      ≤ endRank a.source + (if a.Starts then 4 else 0) := by
  cases a with
  | doAccept p =>
      by_cases hrun : s.isRunning = true <;>
        simp [Action.target, Action.source, Action.OfLoop, Action.Starts, endRank, hrun]
  | complete n ec =>
      have hec : ec.failed = true := hen.2.resolve_left (by simp [hclosed])
      simp [Action.target, Action.source, Action.OfLoop, Action.Starts, endRank, hec]
  | handle n ec =>
      by_cases hec : ec.failed = true <;>
        simp [Action.target, Action.source, Action.OfLoop, Action.Starts, endRank, hec]
  | _ => simp [Action.target, Action.source, Action.OfLoop, Action.Starts, endRank]

/-- The caller stands at a point of `Start` or of `Stop`. -/
def Placed (s : State) : Prop :=
  match s.pc .caller with
  | .idle | .doAccept | .asyncAccept | .close => True
  | .pending | .ready _ | .factory => False

theorem placed_init : Placed init := trivial

theorem placed_next {hasFactory : Bool} (s : State) (a : Action) (h : Placed s)
    (_ : Enabled s a) : Placed (next hasFactory s a) := by
  have hother : ∀ s' : State, s'.pc .caller = s.pc .caller → Placed s' := by
    intro s' heq
    unfold Placed at h ⊢
    rwa [heq]
  cases a with
  | start | stop | close => trivial
  | doAccept p =>
      cases p with
      | caller => by_cases hrun : s.isRunning <;> simp [Placed, next, hrun]
      | handler n => by_cases hrun : s.isRunning <;> exact hother _ (by simp [next, hrun])
  | asyncAccept p =>
      cases p with
      | caller => simp [Placed, next]
      | handler n => exact hother _ (by simp [next])
  | complete n ec => exact hother _ (by simp [next])
  | handle n ec => by_cases hec : ec.failed <;> exact hother _ (by simp [next, hec])
  | factory n => exact hother _ (by simp [next])

/-- A state after `Stop` has closed the acceptor. -/
structure Ending (s : State) : Prop where
  closed : s.isOpen = false
  fresh : Fresh s
  placed : Placed s

theorem ending_next {hasFactory : Bool} (s : State) (a : Action) (h : Ending s)
    (hen : Enabled s a) : Ending (next hasFactory s a) where
  closed := by
    have hclosed := h.closed
    cases a with
    | doAccept p => by_cases hrun : s.isRunning <;> simp [next, hrun, hclosed]
    | handle n ec => by_cases hec : ec.failed <;> simp [next, hec, hclosed]
    | _ => simp [next, hclosed]
  fresh := fresh_next s a h.fresh hen
  placed := placed_next s a h.placed hen

theorem ending_of_run {hasFactory : Bool} {tr : List (State × Action)} {s : State}
    (hr : (acceptor hasFactory).Run tr s) (hclosed : s.isOpen = false) : Ending s where
  closed := hclosed
  fresh := fresh_of_run hr
  placed := hr.invariant placed_init placed_next

/-- The steps the loops still have. -/
def State.toEnd (s : State) : Nat := s.tally endRank

theorem Ending.toEnd_next (hasFactory : Bool) {s : State} {a : Action} (h : Ending s)
    (hen : Enabled s a) :
    (next hasFactory s a).toEnd + (if a.OfLoop then 1 else 0)
      ≤ s.toEnd + (if a.Starts then 4 else 0) := by
  have hstep := tally_next hasFactory h.fresh hen
    (show endRank .idle = 0 from rfl)
  have hweights := endRank_target h.closed hen
  unfold State.toEnd
  omega

/-- As long as a loop is alive one of its steps can be made. -/
theorem Ending.progress {s : State} (h : Ending s) (hloops : s.loops ≠ 0) :
    ∃ a, Enabled s a ∧ a.OfLoop := by
  have hsome : ∃ p, loopWeight (s.pc p) ≠ 0 := by
    by_contra hnone
    push Not at hnone
    unfold State.loops State.tally at hloops
    exact hloops (tally_eq_zero.mpr fun p _ => hnone p)
  obtain ⟨p, hp⟩ := hsome
  have hplaced := h.placed
  unfold Placed at hplaced
  cases hpc : s.pc p with
  | idle | close =>
      rw [hpc] at hp
      exact absurd rfl hp
  | doAccept => exact ⟨.doAccept p, hpc, trivial⟩
  | asyncAccept => exact ⟨.asyncAccept p, hpc, trivial⟩
  | pending | ready ec | factory =>
      cases p with
      | caller =>
          rw [hpc] at hplaced
          exact hplaced.elim
      | handler n =>
          first
          | exact ⟨.complete n ⟨125, "Operation canceled"⟩, ⟨hpc, .inr rfl⟩, trivial⟩
          | exact ⟨.handle n _, hpc, trivial⟩
          | exact ⟨.factory n, hpc, trivial⟩

/-- Without a loop nobody stands at a point that holds one. -/
theorem Ending.weight_eq_zero {s : State} (h : Ending s) (hloops : s.loops = 0) (p : Party) :
    loopWeight (s.pc p) = 0 := by
  by_cases hidle : s.pc p = .idle
  · rw [hidle]
    rfl
  · have hle := weight_le_tally loopWeight s.pc (h.fresh.mem_parties hidle)
    unfold State.loops State.tally at hloops
    omega

/-- And none of these steps can be made. -/
theorem Ending.not_ofLoop {s : State} (h : Ending s) (hloops : s.loops = 0) {a : Action}
    (hen : Enabled s a) : ¬a.OfLoop := by
  intro ha
  have hzero := h.weight_eq_zero hloops a.party
  rw [hen.source] at hzero
  cases a <;> simp_all [Action.OfLoop, Action.source, loopWeight]

/-- The loops can be brought to their end by their own steps. -/
theorem Ending.reaches (hasFactory : Bool) {s : State} (h : Ending s) :
    ∃ acts, (acceptor hasFactory).Admits s acts ∧ (∀ a ∈ acts, a.OfLoop) ∧
      Ending ((acceptor hasFactory).after s acts) ∧
      ((acceptor hasFactory).after s acts).loops = 0 := by
  obtain ⟨acts, hadm, hend, hloops⟩ := reach_of_progress
    (M := (acceptor hasFactory).restrict Action.OfLoop) (I := Ending) (G := fun s => s.loops = 0)
    State.toEnd
    (fun s h hgoal => by
      obtain ⟨a, hen, ha⟩ := h.progress hgoal
      have hlt := h.toEnd_next hasFactory hen
      have hno : ¬a.Starts := by
        intro hstart
        rw [show a = .start from hstart] at ha
        exact ha
      rw [if_pos ha, if_neg hno] at hlt
      exact ⟨a, ⟨hen, ha⟩, ending_next s a h hen, Nat.lt_of_succ_le hlt⟩) s h
  obtain ⟨hadm', hall⟩ := admits_of_restrict hadm
  rw [after_restrict] at hend hloops
  exact ⟨acts, hadm', hall, hend, hloops⟩

/-- **`Stop` ends the accept loops.**  Once the acceptor is closed, the loops that are alive make at
most six steps each in every interleaving, and those of a later `Start` four.  They can be brought
to their end by their own steps, and then there is nothing left for the `io_context` to run. -/
theorem stop_ends_loops (hasFactory : Bool) (tr : List (State × Action)) (s : State)
    (hr : (acceptor hasFactory).Run tr s) (hclosed : s.isOpen = false) :
    (∀ acts, (acceptor hasFactory).Admits s acts →
      acts.countP (Action.OfLoop ·) ≤ 6 * s.loops + 4 * acts.countP (Action.Starts ·)) ∧
    ∃ acts, (acceptor hasFactory).Admits s acts ∧ (∀ a ∈ acts, a.OfLoop) ∧
      ((acceptor hasFactory).after s acts).loops = 0 ∧
      ∀ a, Enabled ((acceptor hasFactory).after s acts) a → ¬a.OfLoop := by
  have hending := ending_of_run hr hclosed
  refine ⟨?_, ?_⟩
  · intro acts hadm
    have hbound := count_le_of_potential (M := acceptor hasFactory) (I := Ending)
      (fun _ => True) Action.OfLoop Action.Starts State.toEnd 4
      (fun s a h hen _ => ⟨ending_next s a h hen, h.toEnd_next hasFactory hen⟩)
      acts s hending hadm (fun _ _ => trivial)
    have hrank : s.toEnd ≤ 6 * s.loops := by
      unfold State.toEnd State.loops State.tally
      exact tally_le endRank_le
    omega
  · obtain ⟨acts, hadm, hall, hend, hloops⟩ := hending.reaches hasFactory
    exact ⟨acts, hadm, hall, hloops, fun a hen => hend.not_ofLoop hloops hen⟩

/-- Two loops, and `Stop` with both accepts pending. -/
def stoppedTwice : List Action :=
  [.start, .doAccept .caller, .asyncAccept .caller, .start, .doAccept .caller,
   .asyncAccept .caller, .stop, .close]

theorem stop_ends_loops_two :
    ∃ acts, (acceptor true).Admits ((acceptor true).after init stoppedTwice) acts ∧
      (∀ a ∈ acts, a.OfLoop) ∧
      ((acceptor true).after ((acceptor true).after init stoppedTwice) acts).loops = 0 := by
  have hadmits : (acceptor true).Admits init stoppedTwice := by decide
  obtain ⟨-, acts, hadm, hall, hloops, -⟩ :=
    stop_ends_loops true _ _ (run_of_admits hadmits) (by decide)
  exact ⟨acts, hadm, hall, hloops⟩

end Core.TcpAcceptor
