/-
Every packet is processed once, in its producer's order, whatever is started and stopped.

The account of a state is the ledger of the worker together with the history that `_queue` keeps.
What a run adds are statements about its order: a call of the processor begins when the one before
has ended, and between the return of a `Stop` and the next `Start` the worker takes no step.
-/
import Cube.Core.Dispatcher.Restart

namespace Core.PacketExecuteQueue

open Library System

variable {π : Type} [DecidableEq π]

/-- The packet that this step of `Enqueue` pushes, with its producer. -/
def pushed : Action π Unit → Option (π × Protocol.PacketItem)
  | .enqueue i item => some (i, item)
  | _ => none

/-- The history that the queue keeps is the calls of `Enqueue` in the run, in their order. -/
def Recorded (tr : List (State π Unit × Action π Unit)) (s : State π Unit) : Prop :=
  s.queue.enqueued.map (fun e => (e.producer, e.value)) = tr.filterMap fun x => pushed x.2

/-- The account of the packets in a state: those enqueued are those handed to the processor, at
most one that the worker holds, and those in the queue.  None is handed out twice, and those of
each producer are handed out in its order. -/
structure Accounted (s : State π Unit) : Prop where
  conserved : s.queue.enqueued.Perm (s.calls ++ held (s.pc .worker) ++ s.queue.pending)
  atMostOne : (held (s.pc .worker)).length ≤ 1
  once : s.calls.Nodup
  ordered : ∀ i : π, s.calls.filter (·.producer = i) <+: s.queue.enqueued.filter (·.producer = i)

/-- The calls of the processor follow each other: each begins when all before it have ended. -/
def Serialized (tr : List (State π Unit × Action π Unit)) : Prop :=
  ∀ x ∈ tr, ∀ e, x.2 = .invoke e → x.1.calls = x.1.returns

/-- The same step with another outcome of the processor. -/
def Action.withOutcome (f : Packet π → Outcome) : Action π Unit → Action π Unit
  | .finish e _ => .finish e (f e)
  | a => a

/-- Between the return of a `Stop` and the next `Start` the worker takes no step. -/
def QuietWhileStopped (tr : List (State π Unit × Action π Unit)) : Prop :=
  ∀ pre mid post s₁ a s₂ b, tr = pre ++ (s₁, a) :: (mid ++ (s₂, b) :: post) → Returns a →
    b.OfWorker → ∃ x ∈ mid, x.2 = .start ()

/-- Every packet that a returning `Stop` left in the queue, or that was enqueued since, is still
there if there was no `Start`. -/
def KeptWhileStopped (tr : List (State π Unit × Action π Unit)) (s : State π Unit) : Prop :=
  ∀ pre mid s₁ a, tr = pre ++ (s₁, a) :: mid → Returns a → (∀ x ∈ mid, x.2 ≠ .start ()) →
    s.calls = s₁.calls ∧ ∀ e ∈ s.queue.enqueued, e ∉ s₁.calls → e ∈ s.queue.pending

/-- Whatever happened since a `Start`: a resting worker has handed out what that `Start` found
in the queue, and it can be handed out from here. -/
def HandedAfterStart (tr : List (State π Unit × Action π Unit)) (s : State π Unit) : Prop :=
  ∀ pre mid s₁, tr = pre ++ (s₁, .start ()) :: mid →
    (¬Working (s.pc .worker) → s.pc (.owner ()) ≠ .spawn →
      ∀ e ∈ s₁.queue.enqueued, e ∈ s.calls) ∧
    ∃ acts, (executeQueue π Unit).Admits s acts ∧
      ∀ e ∈ s₁.queue.enqueued, e ∈ ((executeQueue π Unit).after s acts).calls

/-- A step adds to the history what it pushes. -/
theorem enqueued_map_next (s : State π Unit) (a : Action π Unit) :
    (next s a).queue.enqueued.map (fun e => (e.producer, e.value))
      = s.queue.enqueued.map (fun e => (e.producer, e.value)) ++ (pushed a).toList := by
  cases a with
  | enqueue i item =>
      show (s.queue.enqueued ++ [s.queue.newEntry i item]).map _ = _
      rw [List.map_append]
      rfl
  | predRunning | predPending | testRunning | testPending | hasPending | invoke e =>
      simp only [next]
      split <;> simp [pushed]
  | _ => simp [next, pushed]

theorem recorded_of_run {tr : List (State π Unit × Action π Unit)} {s : State π Unit}
    (hr : (executeQueue π Unit).Run tr s) : Recorded tr s := by
  unfold Recorded
  induction hr with
  | nil => rfl
  | @step tr s a h hen ih =>
      have hlast : [(s, a)].filterMap (fun x => pushed x.2) = (pushed a).toList := by
        cases hpush : pushed a with
        | none => simp [hpush]
        | some x => simp [hpush]
      rw [List.filterMap_append, hlast, ← ih]
      exact enqueued_map_next s a

theorem State.Balanced.accounted {s : State π Unit} (h : s.Balanced) : Accounted s where
  conserved := by
    have hperm := s.queue.conserved
    rwa [h.handed] at hperm
  atMostOne := held_length _
  once := by
    have hnodup := s.queue.nodup_dequeued
    rw [h.handed] at hnodup
    exact (List.nodup_append.mp hnodup).1
  ordered := by
    intro i
    have hcalls : s.calls <+: s.queue.dequeued := ⟨held (s.pc .worker), h.handed.symm⟩
    exact (hcalls.filter _).trans (s.queue.dequeued_prefix i)

theorem serialized_of_run {tr : List (State π Unit × Action π Unit)} {s : State π Unit}
    (hr : (executeQueue π Unit).Run tr s) (hg : Guarded ProcessorSet tr) : Serialized tr := by
  intro x hx e he
  obtain ⟨pre, post, rfl⟩ := List.append_of_mem hx
  obtain ⟨hrun, hen⟩ := hr.split (s := x.1) (a := x.2) rfl
  have hbal := (balanced_of_run hrun fun y hy => hg y (by simp [hy])).1
  rw [he] at hen
  have hpc : x.1.pc .worker = .invoke e := hen
  simpa [hpc, inCall] using hbal.completed

/-- The outcomes of the processor change nothing: with any others the same steps are a run that
ends in the same state. -/
theorem run_withOutcome {tr : List (State π Unit × Action π Unit)} {s : State π Unit}
    (hr : (executeQueue π Unit).Run tr s) (f : Packet π → Outcome) :
    (executeQueue π Unit).Run (tr.map fun x => (x.1, x.2.withOutcome f)) s := by
  induction hr with
  | nil => exact Run.nil
  | @step tr s a h hen ih =>
      have hen' : (executeQueue π Unit).Enabled s (a.withOutcome f) := by
        cases a <;> exact hen
      have hnext : (executeQueue π Unit).next s (a.withOutcome f)
          = (executeQueue π Unit).next s a := by
        cases a <;> rfl
      have hstep := ih.step hen'
      rw [hnext] at hstep
      simpa using hstep

theorem quietWhileStopped_of_run {tr : List (State π Unit × Action π Unit)} {s : State π Unit}
    (hr : (executeQueue π Unit).Run tr s) : QuietWhileStopped tr := by
  intro pre mid post s₁ a s₂ b htr ha hb
  refine hr.separated (Q := fun s => Stopped s.pc) (b := fun c => c = .start ()) ?_ ?_ ?_ htr
  · exact fun hen => (stopped_of_returns hen ha).1
  · exact fun s c _ hQ hen hc => (stopped_next s c hQ hen hc).1
  · intro hQ hen
    obtain ⟨f, hmove⟩ := worker_step hen hb
    exact hmove.alive hQ.1

theorem keptWhileStopped_of_run {tr : List (State π Unit × Action π Unit)} {s : State π Unit}
    (hr : (executeQueue π Unit).Run tr s) (hg : Guarded ProcessorSet tr) :
    KeptWhileStopped tr s := by
  intro pre mid s₁ a htr ha hmid
  obtain ⟨hrun₁, hen₁⟩ := hr.split htr
  have hsince := hr.since (G := fun _ (c : Action π Unit) => c ≠ .start ())
    (Q := fun s => Stopped s.pc ∧ s.queue.dequeued = s₁.queue.dequeued ∧ s.calls = s₁.calls)
    (fun hen => by
      obtain ⟨hstop, hqueue, hcalls⟩ := stopped_of_returns hen ha
      exact ⟨hstop, congrArg _ hqueue, hcalls⟩)
    (fun s c _ hQ hen hc => by
      obtain ⟨hstop, hdeq, hcalls⟩ := stopped_next s c hQ.1 hen hc
      exact ⟨hstop, hdeq.trans hQ.2.1, hcalls.trans hQ.2.2⟩)
    htr hmid
  obtain ⟨hstop, -, hcalls⟩ := hsince
  refine ⟨hcalls, ?_⟩
  intro e he hnot
  -- there is no worker that could hold it, so what has left the queue has been handed out
  have hbal := (balanced_of_run hr hg).1
  have hhanded : s.queue.dequeued = s.calls := by
    simpa [hstop.1, held] using hbal.handed
  rcases ProducerQueue.mem_enqueued.mp he with hd | hp
  · rw [hhanded, hcalls] at hd
    exact absurd hd hnot
  · exact hp

theorem handedAfterStart_of_run {tr : List (State π Unit × Action π Unit)} {s : State π Unit}
    (hr : (executeQueue π Unit).Run tr s) (hg : Guarded ProcessorSet tr) :
    HandedAfterStart tr s := by
  intro pre mid s₁ htr
  have h := restarted_of_run hr hg htr
  exact ⟨h.serving.served, restarted_reaches h⟩

/-- **Each packet is processed exactly once**, one at a time and in its producer's order, across all
calls of `Start` and `Stop` by one owner, if a processor is set at every `Start`.  The packets are
those of the calls of `Enqueue`. -/
theorem processed_exactly_once {tr : List (State π Unit × Action π Unit)} {s : State π Unit}
    (hr : (executeQueue π Unit).Run tr s) (hg : Guarded ProcessorSet tr) :
    Recorded tr s ∧ Accounted s ∧ Serialized tr ∧
      (∀ f : Packet π → Outcome,
        (executeQueue π Unit).Run (tr.map fun x => (x.1, x.2.withOutcome f)) s) ∧
      QuietWhileStopped tr ∧ KeptWhileStopped tr s ∧ HandedAfterStart tr s := by
  have hbal := (balanced_of_run hr hg).1
  refine ⟨recorded_of_run hr, hbal.accounted, serialized_of_run hr hg, ?_,
    quietWhileStopped_of_run hr, keptWhileStopped_of_run hr hg, handedAfterStart_of_run hr hg⟩
  intro f
  exact run_withOutcome hr f

/-- A packet enqueued before `Start`, on which the processor throws, and a packet enqueued between
`Stop` and the next `Start`. -/
def throwAndRestart : List (Action Unit Unit) :=
  [.setProcessor () true, .enqueue () ⟨.REQ_ECHO, 1, [0], 1⟩, .start (), .spawn (), .lock,
   .predRunning, .predPending, .testRunning, .unlock, .hasPending,
   .tryDequeue ⟨(), 0, ⟨.REQ_ECHO, 1, [0], 1⟩⟩, .invoke ⟨(), 0, ⟨.REQ_ECHO, 1, [0], 1⟩⟩,
   .finish ⟨(), 0, ⟨.REQ_ECHO, 1, [0], 1⟩⟩ .unknown, .hasPending, .notifyOne (),
   .stop (), .clear (), .endLock (), .notifyAll (), .lock, .predRunning, .testRunning, .testPending,
   .exit, .joinable (), .join (), .enqueue () ⟨.REQ_ECHO, 2, [], 0⟩, .start (), .spawn (), .lock,
   .predRunning, .predPending, .testRunning, .unlock, .hasPending,
   .tryDequeue ⟨(), 1, ⟨.REQ_ECHO, 2, [], 0⟩⟩, .invoke ⟨(), 1, ⟨.REQ_ECHO, 2, [], 0⟩⟩]

theorem processed_exactly_once_throw :
    Recorded ((executeQueue Unit Unit).trace init throwAndRestart)
        ((executeQueue Unit Unit).after init throwAndRestart) ∧
      Accounted ((executeQueue Unit Unit).after init throwAndRestart) ∧
      Serialized ((executeQueue Unit Unit).trace init throwAndRestart) := by
  have hadmits : (executeQueue Unit Unit).Admits init throwAndRestart := by decide
  have hguard : Guarded ProcessorSet ((executeQueue Unit Unit).trace init throwAndRestart) := by
    simp [Guarded, System.trace, throwAndRestart, ProcessorSet, executeQueue, next, State.notify,
      State.goto, init, ProducerQueue.enqueue, ProducerQueue.dequeueFrom]
  obtain ⟨hrecord, haccount, hserial, -⟩ := processed_exactly_once (run_of_admits hadmits) hguard
  exact ⟨hrecord, haccount, hserial⟩

end Core.PacketExecuteQueue
