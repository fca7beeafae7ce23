/-
What a step of the worker can do.

`Run` and `ProcessPackets` together have fifteen steps, most of which only move the worker from one
point to the next.  `WorkerMove` says of all of them what the invariants need to know: what stays
the same, and under which condition each point is reached.  An invariant then treats the worker's
steps at once.
-/
import Cube.Core.Dispatcher.PacketExecuteQueue

namespace Core.PacketExecuteQueue

variable {π ω : Type} [DecidableEq π] [DecidableEq ω]

/-- The steps of `Run` and `ProcessPackets`. -/
def Action.OfWorker : Action π ω → Prop
  | .lock | .predRunning | .predPending | .block | .wake | .relock => True
  | .testRunning | .testPending | .unlock | .exit => True
  | .hasPending | .tryDequeue _ | .tryDequeueFalse | .invoke _ | .finish _ _ => True
  | _ => False

/-- The points of `Run` that are reached only with `_isRunning` clear. -/
def Leaving : Point π → Prop
  | .testPending | .exit | .finished => True
  | _ => False

/-- The points of each party's own code. -/
def Belongs : Party π ω → Point π → Prop
  | _, .idle => True
  | .producer _, f => f = .notifyOne
  | .owner _, .spawn | .owner _, .clear | .owner _, .endLock => True
  | .owner _, .notifyAll | .owner _, .joinable | .owner _, .join => True
  | .owner _, _ => False
  | .worker, .notifyOne | .worker, .spawn | .worker, .clear | .worker, .endLock => False
  | .worker, .notifyAll | .worker, .joinable | .worker, .join => False
  | .worker, _ => True

/-- What a step of the worker that takes it to `f` can do, and where it can have come from. -/
structure WorkerMove (s s' : State π ω) (f : Point π) : Prop where
  pc : s'.pc = Function.update s.pc .worker f
  alive : s.pc .worker ≠ .idle
  stays : f ≠ .idle
  belongs : Belongs (.worker : Party π ω) f
  isRunning : s'.isRunning = s.isRunning
  hasProcessor : s'.hasProcessor = s.hasProcessor
  predPending : f = .predPending → s.isRunning = true
  block : f = .block → s.pc .worker = .predPending ∧ s.queue.pending = [] ∧ s'.queue = s.queue
  waiting : f = .waiting → s.pc .worker = .block ∧ s'.queue = s.queue
  woken : f = .woken → s.pc .worker = .waiting
  leaving : Leaving f → s.isRunning = false ∨ Leaving (s.pc .worker)
  exit : f = .exit → s.pc .worker = .testPending ∧ s.queue.pending = []
  finished : f = .finished → s.pc .worker = .exit

/-- A move to a point that none of the conditions is about. -/
theorem WorkerMove.plain {s s' : State π ω} {f : Point π}
    (pc : s'.pc = Function.update s.pc .worker f) (alive : s.pc .worker ≠ .idle)
    (isRunning : s'.isRunning = s.isRunning) (hasProcessor : s'.hasProcessor = s.hasProcessor)
    (hbelongs : Belongs (.worker : Party π ω) f)
    (hf : f ≠ .idle ∧ f ≠ .predPending ∧ f ≠ .block ∧ f ≠ .waiting ∧ f ≠ .woken ∧ ¬Leaving f) :
    WorkerMove s s' f where
  pc := pc
  alive := alive
  stays := hf.1
  belongs := hbelongs
  isRunning := isRunning
  hasProcessor := hasProcessor
  predPending := fun h => absurd h hf.2.1
  block := fun h => absurd h hf.2.2.1
  waiting := fun h => absurd h hf.2.2.2.1
  woken := fun h => absurd h hf.2.2.2.2.1
  leaving := fun h => absurd h hf.2.2.2.2.2
  exit := fun h => absurd (by simp [h, Leaving]) hf.2.2.2.2.2
  finished := fun h => absurd (by simp [h, Leaving]) hf.2.2.2.2.2

theorem worker_step {s : State π ω} {a : Action π ω} (hen : Enabled s a) (ha : a.OfWorker) :
    ∃ f, WorkerMove s (next s a) f := by
  cases a with
  | lock =>
      exact ⟨.predRunning, .plain rfl (by simp [hen.1]) rfl rfl trivial (by simp [Leaving])⟩
  | predRunning =>
      have hpc : s.pc .worker = .predRunning := hen
      by_cases hrun : s.isRunning = true
      · have hnext : next s .predRunning = s.goto .worker .predPending := if_pos hrun
        rw [hnext]
        refine ⟨.predPending, ⟨rfl, by simp [hpc], ?_, trivial, rfl, rfl, fun _ => hrun, ?_, ?_, ?_,
          ?_, ?_, ?_⟩⟩ <;> simp [Leaving]
      · have hnext : next s .predRunning = s.goto .worker .testRunning := if_neg hrun
        rw [hnext]
        exact ⟨.testRunning, .plain rfl (by simp [hpc]) rfl rfl trivial (by simp [Leaving])⟩
  | predPending =>
      have hpc : s.pc .worker = .predPending := hen
      by_cases hempty : s.queue.pending = []
      · have hnext : next s .predPending = s.goto .worker .block := if_pos hempty
        rw [hnext]
        refine ⟨.block, ⟨rfl, by simp [hpc], ?_, trivial, rfl, rfl, ?_, fun _ => ⟨hpc, hempty, rfl⟩,
          ?_, ?_, ?_, ?_, ?_⟩⟩ <;> simp [Leaving]
      · have hnext : next s .predPending = s.goto .worker .testRunning := if_neg hempty
        rw [hnext]
        exact ⟨.testRunning, .plain rfl (by simp [hpc]) rfl rfl trivial (by simp [Leaving])⟩
  | block =>
      have hpc : s.pc .worker = .block := hen
      refine ⟨.waiting, ⟨rfl, by simp [hpc], ?_, trivial, rfl, rfl, ?_, ?_, fun _ => ⟨hpc, rfl⟩, ?_,
        ?_, ?_, ?_⟩⟩ <;> simp [Leaving]
  | wake =>
      have hpc : s.pc .worker = .waiting := hen
      refine ⟨.woken, ⟨rfl, by simp [hpc], ?_, trivial, rfl, rfl, ?_, ?_, ?_, fun _ => hpc, ?_, ?_,
        ?_⟩⟩ <;> simp [Leaving]
  | relock => exact ⟨.predRunning, .plain rfl (by simp [hen.1]) rfl rfl trivial (by simp [Leaving])⟩
  | testRunning =>
      have hpc : s.pc .worker = .testRunning := hen
      by_cases hrun : s.isRunning = true
      · have hnext : next s .testRunning = s.goto .worker .unlock := if_pos hrun
        rw [hnext]
        exact ⟨.unlock, .plain rfl (by simp [hpc]) rfl rfl trivial (by simp [Leaving])⟩
      · have hnext : next s .testRunning = s.goto .worker .testPending := if_neg hrun
        rw [hnext]
        refine ⟨.testPending, ⟨rfl, by simp [hpc], ?_, trivial, rfl, rfl, ?_, ?_, ?_, ?_,
          fun _ => Or.inl (by simpa using hrun), ?_, ?_⟩⟩ <;> simp
  | testPending =>
      have hpc : s.pc .worker = .testPending := hen
      by_cases hempty : s.queue.pending = []
      · have hnext : next s .testPending = s.goto .worker .exit := if_pos hempty
        rw [hnext]
        refine ⟨.exit, ⟨rfl, by simp [hpc], ?_, trivial, rfl, rfl, ?_, ?_, ?_, ?_,
          fun _ => Or.inr (by simp [hpc, Leaving]), fun _ => ⟨hpc, hempty⟩, ?_⟩⟩ <;> simp
      · have hnext : next s .testPending = s.goto .worker .unlock := if_neg hempty
        rw [hnext]
        exact ⟨.unlock, .plain rfl (by simp [hpc]) rfl rfl trivial (by simp [Leaving])⟩
  | unlock =>
      have hpc : s.pc .worker = .unlock := hen
      exact ⟨.hasPending, .plain rfl (by simp [hpc]) rfl rfl trivial (by simp [Leaving])⟩
  | exit =>
      have hpc : s.pc .worker = .exit := hen
      refine ⟨.finished, ⟨rfl, by simp [hpc], ?_, trivial, rfl, rfl, ?_, ?_, ?_, ?_,
        fun _ => Or.inr (by simp [hpc, Leaving]), ?_, fun _ => hpc⟩⟩ <;> simp
  | hasPending =>
      have hpc : s.pc .worker = .hasPending := hen
      by_cases hempty : s.queue.pending = []
      · have hnext : next s .hasPending = s.goto .worker .lock := if_pos hempty
        rw [hnext]
        exact ⟨.lock, .plain rfl (by simp [hpc]) rfl rfl trivial (by simp [Leaving])⟩
      · have hnext : next s .hasPending = s.goto .worker .tryDequeue := if_neg hempty
        rw [hnext]
        exact ⟨.tryDequeue, .plain rfl (by simp [hpc]) rfl rfl trivial (by simp [Leaving])⟩
  | tryDequeue e =>
      exact ⟨.invoke e, .plain rfl (by simp [hen.1]) rfl rfl trivial (by simp [Leaving])⟩
  | tryDequeueFalse =>
      exact ⟨.hasPending, .plain rfl (by simp [hen.1]) rfl rfl trivial (by simp [Leaving])⟩
  | invoke e =>
      have hpc : s.pc .worker = .invoke e := hen
      by_cases hset : s.hasProcessor = true
      · have hnext : next s (.invoke e)
            = { s.goto .worker (.calling e) with calls := s.calls ++ [e] } := if_pos hset
        rw [hnext]
        exact ⟨.calling e, .plain rfl (by simp [hpc]) rfl rfl trivial (by simp [Leaving])⟩
      · have hnext : next s (.invoke e) = s.goto .worker .hasPending := if_neg hset
        rw [hnext]
        exact ⟨.hasPending, .plain rfl (by simp [hpc]) rfl rfl trivial (by simp [Leaving])⟩
  | finish e outcome =>
      have hpc : s.pc .worker = .calling e := hen
      exact ⟨.hasPending, .plain rfl (by simp [hpc]) rfl rfl trivial (by simp [Leaving])⟩
  | _ => exact absurd ha (by simp [Action.OfWorker])

end Core.PacketExecuteQueue
