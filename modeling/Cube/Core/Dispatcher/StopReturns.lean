/-
`Stop` returns.

A `Stop` that waits in `join` waits for the worker, and the worker with the flag clear goes through
`Run` and `ProcessPackets` until it finds the queue empty.  `distance` counts the steps it still has
to make, twenty for each packet that waits.  Every step of the worker lowers it, and only a packet
that is pushed meanwhile raises it.  So the worker makes a bounded number of steps whatever the
others do, it can always make the next one, and `Stop` can be brought to its end from every state of
a run without a step of any producer.
-/
import Cube.Core.Dispatcher.Restart

namespace Core.PacketExecuteQueue

open Library System

variable {π : Type}

/-- How many steps the worker is from the end of `Run`, apart from the packets it still takes. -/
def leaveRank (empty : Prop) [Decidable empty] : Point π → Nat
  | .invoke _ => 13
  | .calling _ => 12
  | .tryDequeue => if empty then 11 else 3
  | .unlock => if empty then 11 else 5
  | .hasPending => if empty then 10 else 4
  | .lock | .woken => 9
  | .predRunning => 8
  | .testRunning => 7
  | .testPending => 6
  | .exit => 1
  | _ => 0

/-- With packets waiting the worker is no farther from the end of its current round. -/
theorem leaveRank_le (empty : Prop) [Decidable empty] (f : Point π) :
    leaveRank False f ≤ leaveRank empty f ∧ leaveRank empty f ≤ 13 := by
  by_cases h : empty
  · cases f <;> simp [leaveRank, h]
  · cases f <;> simp [leaveRank, h]

/-- The steps of `Enqueue`. -/
def Action.OfProducer {ω : Type} : Action π ω → Prop
  | .enqueue _ _ | .notifyOne _ => True
  | _ => False

/-- The push of a packet. -/
def Action.Pushes {ω : Type} : Action π ω → Prop
  | .enqueue _ _ => True
  | _ => False

instance {ω : Type} : DecidablePred (Action.Pushes (π := π) (ω := ω))
  | .enqueue .. => isTrue trivial
  | .notifyOne _ | .setProcessor .. | .start _ | .spawn _ | .stop _ | .clear _ => isFalse id
  | .endLock _ | .notifyAll _ | .joinable _ | .notJoinable _ | .join _ => isFalse id
  | .lock | .predRunning | .predPending | .block | .wake | .relock => isFalse id
  | .testRunning | .testPending | .unlock | .exit => isFalse id
  | .hasPending | .tryDequeue _ | .tryDequeueFalse | .invoke _ | .finish .. => isFalse id

instance {ω : Type} : DecidablePred (Action.OfWorker (π := π) (ω := ω))
  | .enqueue .. | .notifyOne _ | .setProcessor .. | .start _ | .spawn _ | .stop _ => isFalse id
  | .clear _ | .endLock _ | .notifyAll _ | .joinable _ | .notJoinable _ | .join _ => isFalse id
  | .lock | .predRunning | .predPending | .block | .wake | .relock => isTrue trivial
  | .testRunning | .testPending | .unlock | .exit => isTrue trivial
  | .hasPending | .tryDequeue _ | .tryDequeueFalse | .invoke _ | .finish .. => isTrue trivial

theorem Action.OfWorker.not_producer {ω : Type} {a : Action π ω} (ha : a.OfWorker) :
    ¬a.OfProducer := by
  cases a with
  | enqueue i item => exact ha.elim
  | notifyOne i => exact ha.elim
  | _ => exact id

variable [DecidableEq π]

/-! ### What holds in every run of one owner -/

structure Sound (s : State π Unit) : Prop where
  placed : Placed s.pc
  locked : Locked Inside s.pc s.mutex
  alternates : Alternates s.pc s.isRunning
  watched : Watched s.pc s.isRunning

theorem sound_next (s : State π Unit) (a : Action π Unit) (h : Sound s) (hen : Enabled s a) :
    Sound (next s a) where
  placed := placed_next s a h.placed hen
  locked := locked_next s a h.locked hen
  alternates := alternates_next s a h.alternates hen
  watched := watched_next s a h.locked h.watched hen

theorem sound_of_run {tr : List (State π Unit × Action π Unit)} {s : State π Unit}
    (hr : (executeQueue π Unit).Run tr s) : Sound s :=
  ⟨placed_of_run hr, locked_of_run hr, alternates_of_run hr, watched_of_run hr⟩

/-- Who holds `_mutex` while the owner is outside: the worker, if anybody. -/
theorem Sound.free {s : State π Unit} (h : Sound s) (howner : ¬Inside (s.pc (.owner ())))
    (hworker : ¬Inside (s.pc .worker)) : s.mutex = none := by
  cases hmutex : s.mutex with
  | none => rfl
  | some p =>
      have hin : Inside (s.pc p) := (h.locked p).mpr hmutex
      cases p with
      | worker => exact absurd hin hworker
      | owner o => exact absurd hin howner
      | producer i =>
          have hplace := h.placed (.producer i)
          cases hpi : s.pc (.producer i) <;> simp_all [Inside, Belongs]

/-! ### The worker on its way out -/

/-- How many steps the worker is from the end of `Run`, at most. -/
def distance (s : State π Unit) : Nat :=
  20 * s.queue.pending.length + leaveRank (s.queue.pending = []) (s.pc .worker)

/-- The owner waits in `join`. -/
structure Joining (s : State π Unit) : Prop extends Sound s where
  join : s.pc (.owner ()) = .join

namespace Joining

variable {s : State π Unit}

theorem isRunning (h : Joining s) : s.isRunning = false :=
  h.alternates.cleared (by simp [h.join, Cleared])

/-- The worker neither is blocked nor goes to block. -/
theorem awake (h : Joining s) : s.pc .worker ≠ .predPending ∧ s.pc .worker ≠ .block ∧
    s.pc .worker ≠ .waiting := by
  have hclear := h.isRunning
  refine ⟨?_, ?_, ?_⟩
  · intro hpc
    simp [h.watched.checked (.inl hpc)] at hclear
  · intro hpc
    simp [h.watched.checked (.inr hpc)] at hclear
  · intro hpc
    obtain ⟨o, ho⟩ := h.watched.waiting hpc hclear
    rw [show Party.owner o = (.owner () : Party π Unit) from rfl, h.join] at ho
    exact ho

/-- A step of the worker brings it nearer to the end. -/
theorem worker (h : Joining s) {a : Action π Unit} (hen : Enabled s a) (ha : a.OfWorker) :
    distance (next s a) < distance s := by
  have hclear := h.isRunning
  obtain ⟨hpred, hblock, hwait⟩ := h.awake
  unfold distance
  cases a with
  | lock | relock => simp [next, hen.1, leaveRank]
  | predRunning =>
      have hpc : s.pc .worker = .predRunning := hen
      simp [next, hpc, hclear, leaveRank]
  | predPending => exact absurd hen hpred
  | block => exact absurd hen hblock
  | wake => exact absurd hen hwait
  | testRunning =>
      have hpc : s.pc .worker = .testRunning := hen
      simp [next, hpc, hclear, leaveRank]
  | testPending =>
      have hpc : s.pc .worker = .testPending := hen
      by_cases hempty : s.queue.pending = []
      · simp [next, hpc, hempty, leaveRank]
      · simp [next, hpc, hempty, leaveRank]
  | unlock =>
      have hpc : s.pc .worker = .unlock := hen
      by_cases hempty : s.queue.pending = []
      · simp [next, hpc, hempty, leaveRank]
      · simp [next, hpc, hempty, leaveRank]
  | exit =>
      have hpc : s.pc .worker = .exit := hen
      simp [next, hpc, leaveRank]
  | hasPending =>
      have hpc : s.pc .worker = .hasPending := hen
      by_cases hempty : s.queue.pending = []
      · simp [next, hpc, hempty, leaveRank]
      · simp [next, hpc, hempty, leaveRank]
  | tryDequeue e =>
      obtain ⟨hpc, hfront⟩ := hen
      have hlen := ProducerQueue.dequeueFrom_pending_length hfront
      have hsome : s.queue.pending ≠ [] := by
        intro hnil
        simp [hnil] at hlen
      simp only [next, goto_pc, Function.update_self, hpc, hsome, leaveRank, if_false]
      omega
  | tryDequeueFalse => simp [next, hen.1, hen.2, leaveRank]
  | invoke e =>
      have hpc : s.pc .worker = .invoke e := hen
      by_cases hset : s.hasProcessor = true
      · simp [next, hpc, hset, leaveRank]
      · by_cases hempty : s.queue.pending = []
        · simp [next, hpc, hset, hempty, leaveRank]
        · simp [next, hpc, hset, hempty, leaveRank]
  | finish e outcome =>
      have hpc : s.pc .worker = .calling e := hen
      by_cases hempty : s.queue.pending = []
      · simp [next, hpc, hempty, leaveRank]
      · simp [next, hpc, hempty, leaveRank]
  | _ => exact absurd ha (by simp [Action.OfWorker])

/-- Only a producer moves besides the worker. -/
theorem producer (h : Joining s) {a : Action π Unit} (hen : Enabled s a) (ha : ¬a.OfWorker)
    (hjoin : a ≠ .join ()) : a.OfProducer := by
  have howner := h.join
  cases a with
  | enqueue i item => trivial
  | notifyOne i => trivial
  | setProcessor o nonEmpty => exact absurd (howner.symm.trans hen.1) (by simp)
  | start o => exact absurd (howner.symm.trans hen.1) (by simp)
  | spawn o => exact absurd (howner.symm.trans hen.1) (by simp)
  | stop o => exact absurd (howner.symm.trans hen.1) (by simp)
  | clear o => exact absurd (howner.symm.trans hen) (by simp)
  | endLock o => exact absurd (howner.symm.trans hen) (by simp)
  | notifyAll o => exact absurd (howner.symm.trans hen) (by simp)
  | joinable o => exact absurd (howner.symm.trans hen.1) (by simp)
  | notJoinable o => exact absurd (howner.symm.trans hen.1) (by simp)
  | join o => exact absurd rfl hjoin
  | _ => exact absurd trivial ha

theorem notify (h : Joining s) : s.notify = s := by
  rcases notify_cases s with ⟨hpc, -⟩ | ⟨-, heq⟩
  · exact absurd hpc h.awake.2.2
  · exact heq

/-- A push sets the end back by no more than twenty steps, and nothing else does. -/
theorem other (h : Joining s) {a : Action π Unit} (hen : Enabled s a) (ha : ¬a.OfWorker)
    (hjoin : a ≠ .join ()) :
    distance (next s a) ≤ distance s + (if a.Pushes then 20 else 0) := by
  have hproducer := h.producer hen ha hjoin
  cases a with
  | enqueue i item =>
      have hpushes : (Action.enqueue i item : Action π Unit).Pushes := trivial
      have hfewer := (leaveRank_le (s.queue.pending = []) (s.pc .worker)).1
      have hpc : (next s (.enqueue i item)).pc .worker = s.pc .worker := by simp [next]
      have hlength : (next s (.enqueue i item)).queue.pending.length
          = s.queue.pending.length + 1 := by simp [next]
      have hsome : leaveRank ((next s (.enqueue i item)).queue.pending = []) (s.pc .worker)
          = leaveRank False (s.pc .worker) := by
        have hne : (next s (.enqueue i item)).queue.pending ≠ [] := by simp [next]
        simp only [hne]
      unfold distance
      rw [if_pos hpushes, hpc, hlength, hsome]
      omega
  | notifyOne i =>
      unfold distance
      simp [next, h.notify]
  | _ => exact absurd hproducer id

/-- The owner goes on waiting until it has joined the worker. -/
theorem stays (h : Joining s) {a : Action π Unit} (hen : Enabled s a) (hjoin : a ≠ .join ()) :
    Joining (next s a) := by
  refine ⟨sound_next s a h.toSound hen, ?_⟩
  by_cases ha : a.OfWorker
  · obtain ⟨f, hmove⟩ := worker_step hen ha
    rw [hmove.pc, Function.update_of_ne (by simp)]
    exact h.join
  · have hproducer := h.producer hen ha hjoin
    cases a with
    | enqueue i item => simpa [next] using h.join
    | notifyOne i => simpa [next] using h.join
    | _ => exact absurd hproducer id

/-- The worker is never stuck, and at its end it is joined. -/
theorem progress (h : Joining s) :
    s.pc .worker = .finished ∨ ∃ a, Enabled s a ∧ a.OfWorker := by
  have hfree : ¬Inside (s.pc .worker) → s.mutex = none :=
    h.free (by simp [h.join, Inside])
  obtain ⟨hpred, hblock, hwait⟩ := h.awake
  have hplace := h.placed .worker
  cases hpc : s.pc .worker with
  | idle => exact absurd hpc (h.alternates.joining h.join)
  | lock => exact .inr ⟨.lock, ⟨hpc, hfree (by simp [hpc, Inside])⟩, trivial⟩
  | woken => exact .inr ⟨.relock, ⟨hpc, hfree (by simp [hpc, Inside])⟩, trivial⟩
  | predRunning => exact .inr ⟨.predRunning, hpc, trivial⟩
  | predPending => exact absurd hpc hpred
  | block => exact absurd hpc hblock
  | waiting => exact absurd hpc hwait
  | testRunning => exact .inr ⟨.testRunning, hpc, trivial⟩
  | testPending => exact .inr ⟨.testPending, hpc, trivial⟩
  | unlock => exact .inr ⟨.unlock, hpc, trivial⟩
  | exit => exact .inr ⟨.exit, hpc, trivial⟩
  | hasPending => exact .inr ⟨.hasPending, hpc, trivial⟩
  | tryDequeue =>
      by_cases hempty : s.queue.pending = []
      · exact .inr ⟨.tryDequeueFalse, ⟨hpc, hempty⟩, trivial⟩
      · obtain ⟨e, he⟩ := List.exists_mem_of_ne_nil _ hempty
        obtain ⟨e', hfront⟩ := ProducerQueue.exists_front he
        have hproducer : e'.producer = e.producer := by
          simpa using List.find?_some hfront
        rw [← hproducer] at hfront
        exact .inr ⟨.tryDequeue e', ⟨hpc, hfront⟩, trivial⟩
  | invoke e => exact .inr ⟨.invoke e, hpc, trivial⟩
  | calling e => exact .inr ⟨.finish e .returned, hpc, trivial⟩
  | finished => exact .inl rfl
  | _ =>
      rw [hpc] at hplace
      exact hplace.elim

/-- However the others step in between, the worker takes a bounded number of steps. -/
theorem workerSteps_le (h : Joining s) {acts : List (Action π Unit)}
    (hadm : (executeQueue π Unit).Admits s acts) (hjoin : .join () ∉ acts) :
    acts.countP (Action.OfWorker ·) ≤
      20 * (s.queue.pending.length + acts.countP (Action.Pushes ·)) + 13 := by
  have hbound := count_le_of_potential (M := executeQueue π Unit) (I := Joining)
    (· ≠ .join ()) Action.OfWorker Action.Pushes distance 20
    (fun s a hs hen hok => by
      refine ⟨hs.stays hen hok, ?_⟩
      by_cases ha : a.OfWorker
      · have hlt := hs.worker hen ha
        rw [if_pos ha]
        exact Nat.le_trans hlt (Nat.le_add_right _ _)
      · rw [if_neg ha]
        exact hs.other hen ha hok)
    acts s h hadm (fun a ha heq => hjoin (heq ▸ ha))
  have hrank := (leaveRank_le (s.queue.pending = []) (s.pc .worker)).2
  unfold distance at hbound
  omega

end Joining

/-! ### From every state to the end of a `Stop` -/

/-- How many steps the worker is from releasing `_mutex`. -/
def releaseRank : Point π → Nat
  | .predRunning => 5
  | .predPending => 4
  | .testRunning => 3
  | .testPending => 2
  | .block | .unlock | .exit => 1
  | _ => 0

/-- No thread is left in the queue. -/
def AtRest (s : State π Unit) : Prop := s.pc (.owner ()) = .idle ∧ s.pc .worker = .idle

instance (s : State π Unit) : Decidable (AtRest s) := inferInstanceAs (Decidable (_ ∧ _))

/-- How many steps the owner is from there, if it calls `Stop` as soon as it can: first the worker
has to release the mutex, and in the end to leave. -/
def ownerRest (releasing leaving : Nat) : Point π → Nat
  | .spawn => 30
  | .idle => 24 + releasing
  | .clear => 23
  | .endLock => 22
  | .notifyAll => 21
  | .joinable => 20
  | _ => 1 + leaving

/-- How many steps the owner and the worker are from rest. -/
def toRest (s : State π Unit) : Nat :=
  if AtRest s then 0
  else 20 * s.queue.pending.length + ownerRest (releaseRank (s.pc .worker))
    (leaveRank (s.queue.pending = []) (s.pc .worker)) (s.pc (.owner ()))

theorem Joining.toRest_eq {s : State π Unit} (h : Joining s) : toRest s = distance s + 1 := by
  have hno : ¬AtRest s := by simp [AtRest, h.join]
  unfold toRest
  rw [if_neg hno, h.join]
  simp only [distance, ownerRest]
  omega

/-- The owner waits: the worker goes on, or it is joined. -/
theorem Joining.toRest_lt {s : State π Unit} (h : Joining s) :
    ∃ a, Enabled s a ∧ ¬a.OfProducer ∧ toRest (next s a) < toRest s := by
  rcases h.progress with hfinished | hstep
  · have hrest : AtRest (next s (.join ())) := by simp [AtRest, next]
    refine ⟨.join (), ⟨h.join, hfinished⟩, id, ?_⟩
    rw [h.toRest_eq, toRest, if_pos hrest]
    omega
  · obtain ⟨a, hen, ha⟩ := hstep
    have hlt := h.worker hen ha
    refine ⟨a, hen, ha.not_producer, ?_⟩
    rw [h.toRest_eq, (h.stays hen (fun heq => by simp [heq, Action.OfWorker] at ha)).toRest_eq]
    omega

/-- A worker that holds the mutex comes nearer to its release, and takes no packet on the way. -/
theorem Sound.releases {s : State π Unit} (h : Sound s) (hin : Inside (s.pc .worker)) :
    ∃ a, Enabled s a ∧ a.OfWorker ∧ (next s a).queue = s.queue ∧
      releaseRank ((next s a).pc .worker) < releaseRank (s.pc .worker) := by
  have hplace := h.placed .worker
  cases hpc : s.pc .worker with
  | predRunning =>
      refine ⟨.predRunning, hpc, trivial, ?_⟩
      by_cases hrun : s.isRunning = true
      · simp [next, hrun, releaseRank]
      · simp [next, hrun, releaseRank]
  | predPending =>
      refine ⟨.predPending, hpc, trivial, ?_⟩
      by_cases hempty : s.queue.pending = []
      · simp [next, hempty, releaseRank]
      · simp [next, hempty, releaseRank]
  | testRunning =>
      refine ⟨.testRunning, hpc, trivial, ?_⟩
      by_cases hrun : s.isRunning = true
      · simp [next, hrun, releaseRank]
      · simp [next, hrun, releaseRank]
  | testPending =>
      refine ⟨.testPending, hpc, trivial, ?_⟩
      by_cases hempty : s.queue.pending = []
      · simp [next, hempty, releaseRank]
      · simp [next, hempty, releaseRank]
  | block => exact ⟨.block, hpc, trivial, rfl, by simp [next, releaseRank]⟩
  | unlock => exact ⟨.unlock, hpc, trivial, rfl, by simp [next, releaseRank]⟩
  | exit => exact ⟨.exit, hpc, trivial, rfl, by simp [next, releaseRank]⟩
  | clear | endLock =>
      rw [hpc] at hplace
      exact hplace.elim
  | _ => simp [hpc, Inside] at hin

/-- The owner is outside: the worker releases the mutex, or `Stop` is called. -/
theorem Sound.toRest_idle {s : State π Unit} (h : Sound s) (hpc : s.pc (.owner ()) = .idle)
    (hworker : s.pc .worker ≠ .idle) :
    ∃ a, Enabled s a ∧ ¬a.OfProducer ∧ toRest (next s a) < toRest s := by
  have hno : ¬AtRest s := fun hrest => hworker hrest.2
  by_cases hin : Inside (s.pc .worker)
  · obtain ⟨a, hen, ha, hqueue, hlt⟩ := h.releases hin
    obtain ⟨f, hmove⟩ := worker_step hen ha
    have hstill : (next s a).pc (.owner ()) = .idle := by
      rw [hmove.pc, Function.update_of_ne (by simp)]
      exact hpc
    refine ⟨a, hen, ha.not_producer, ?_⟩
    unfold toRest
    rw [if_neg hno, hstill, hpc, hqueue]
    simp only [ownerRest]
    split_ifs <;> omega
  · have hfree := h.free (by simp [hpc, Inside]) hin
    refine ⟨.stop (), ⟨hpc, hfree⟩, id, ?_⟩
    simp [toRest, AtRest, next, hpc, hworker, ownerRest]
    omega

/-- As long as a thread is left, the owner or the worker makes a step towards the end. -/
theorem Sound.toRest_lt {s : State π Unit} (h : Sound s) (hgoal : ¬AtRest s) :
    ∃ a, Enabled s a ∧ ¬a.OfProducer ∧ toRest (next s a) < toRest s := by
  have hplace := h.placed (.owner ())
  cases hpc : s.pc (.owner ()) with
  | spawn =>
      have hworker := (h.alternates.spawning hpc).1
      refine ⟨.spawn (), ⟨hpc, hworker⟩, id, ?_⟩
      simp [toRest, AtRest, next, hpc, ownerRest, releaseRank]
  | idle => exact h.toRest_idle hpc fun hworker => hgoal ⟨hpc, hworker⟩
  | clear => exact ⟨.clear (), hpc, id, by simp [toRest, AtRest, next, hpc, ownerRest]⟩
  | endLock => exact ⟨.endLock (), hpc, id, by simp [toRest, AtRest, next, hpc, ownerRest]⟩
  | notifyAll => exact ⟨.notifyAll (), hpc, id, by simp [toRest, AtRest, next, hpc, ownerRest]⟩
  | joinable =>
      by_cases hworker : s.pc .worker = .idle
      · refine ⟨.notJoinable (), ⟨hpc, hworker⟩, id, ?_⟩
        simp [toRest, AtRest, next, hpc, hworker, ownerRest]
      · have hrank := (leaveRank_le (s.queue.pending = []) (s.pc .worker)).2
        refine ⟨.joinable (), ⟨hpc, hworker⟩, id, ?_⟩
        simp [toRest, AtRest, next, hpc, ownerRest]
        omega
  | join => exact Joining.toRest_lt ⟨h, hpc⟩
  | _ =>
      rw [hpc] at hplace
      exact hplace.elim

/-- **`Stop` returns.**  While it waits in `join`, the worker can always make a step until it has
finished, and it makes a bounded number of them in every interleaving.  And from every state of a
run the owner and the worker alone can bring a `Stop` to its end. -/
theorem stop_returns (π : Type) [DecidableEq π] :
    (∀ tr (s : State π Unit), (executeQueue π Unit).Run tr s → s.pc (.owner ()) = .join →
      (Enabled s (.join ()) ∨ ∃ a, Enabled s a ∧ a.OfWorker) ∧
      ∀ acts, (executeQueue π Unit).Admits s acts → .join () ∉ acts →
        acts.countP (Action.OfWorker ·) ≤
          20 * (s.queue.pending.length + acts.countP (Action.Pushes ·)) + 13) ∧
    ∀ tr (s : State π Unit), (executeQueue π Unit).Run tr s →
      ∃ acts, (executeQueue π Unit).Admits s acts ∧ (∀ a ∈ acts, ¬a.OfProducer) ∧
        AtRest ((executeQueue π Unit).after s acts) := by
  refine ⟨?_, ?_⟩
  · intro tr s hr hpc
    have hjoining : Joining s := ⟨sound_of_run hr, hpc⟩
    refine ⟨?_, fun acts hadm hjoin => hjoining.workerSteps_le hadm hjoin⟩
    rcases hjoining.progress with hfinished | hstep
    · exact .inl ⟨hpc, hfinished⟩
    · exact .inr hstep
  · intro tr s hr
    obtain ⟨acts, hadm, -, hgoal⟩ := reach_of_progress
      (M := (executeQueue π Unit).restrict fun a => ¬a.OfProducer) (I := Sound) (G := AtRest) toRest
      (fun s hs hgoal => by
        obtain ⟨a, hen, hno, hlt⟩ := hs.toRest_lt hgoal
        exact ⟨a, ⟨hen, hno⟩, sound_next s a hs hen, hlt⟩) s (sound_of_run hr)
    obtain ⟨hadm', hno⟩ := admits_of_restrict hadm
    rw [after_restrict] at hgoal
    exact ⟨acts, hadm', hno, hgoal⟩

/-- A packet waits, and `Stop` is called and gets as far as `join`. -/
def stopWithPacket : List (Action Unit Unit) :=
  [.start (), .spawn (), .enqueue () ⟨.REQ_ECHO, 1, [], 0⟩, .stop (), .clear (), .endLock (),
   .notifyAll (), .joinable ()]

theorem stop_returns_packet :
    (Enabled ((executeQueue Unit Unit).after init stopWithPacket) (.join ()) ∨
        ∃ a, Enabled ((executeQueue Unit Unit).after init stopWithPacket) a ∧ a.OfWorker) ∧
      ∀ acts, (executeQueue Unit Unit).Admits
          ((executeQueue Unit Unit).after init stopWithPacket) acts → .join () ∉ acts →
        acts.countP (Action.OfWorker ·) ≤ 20 * (1 + acts.countP (Action.Pushes ·)) + 13 := by
  have hadmits : (executeQueue Unit Unit).Admits init stopWithPacket := by decide
  exact (stop_returns Unit).1 _ _ (run_of_admits hadmits) (by decide)

end Core.PacketExecuteQueue
