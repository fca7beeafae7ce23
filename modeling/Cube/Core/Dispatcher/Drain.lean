/-
`Stop` drains the queue.

There is one way out of `Run`: the test that finds `_isRunning` clear and then the queue
empty, in this order, with the worker between two packets.  What was in the queue when
`Stop` cleared the flag has left it by then, and what has left it has been processed.  From
the clear to the return of `Stop` this is carried by `Draining`.
-/
import Cube.Core.Dispatcher.Ledger

namespace Core.PacketExecuteQueue

open Library System

variable {π : Type} [DecidableEq π]

/-- The last step of a call of `Stop`. -/
def Returns : Action π Unit → Prop
  | .notJoinable _ | .join _ => True
  | _ => False

/-- An empty queue and a worker between two packets: every packet has been processed. -/
theorem State.Balanced.mem_returns {s : State π Unit} (h : s.Balanced)
    (hempty : s.queue.pending = []) (hheld : held (s.pc .worker) = [])
    (hcall : inCall (s.pc .worker) = []) {e : Packet π} (he : e ∈ s.queue.enqueued) :
    e ∈ s.returns := by
  have hdeq : e ∈ s.queue.dequeued := ProducerQueue.mem_dequeued_of_pending_nil hempty he
  rw [h.handed, hheld, List.append_nil, h.completed, hcall, List.append_nil] at hdeq
  exact hdeq

/-- `Stop` has cleared the flag and not returned.  A worker on its way out has processed the packets
of `E`. -/
structure Draining (E : List (Packet π)) (s : State π Unit) : Prop where
  isRunning : s.isRunning = false
  owner : Cleared (s.pc (.owner ()))
  worker : s.pc .worker ≠ .idle
  hasProcessor : s.hasProcessor = true
  balanced : s.Balanced
  kept : ∀ e ∈ E, e ∈ s.queue.enqueued
  drained : s.pc .worker = .exit ∨ s.pc .worker = .finished → ∀ e ∈ E, e ∈ s.returns

/-- A step that moves the caller of `Stop` on, or a producer, or wakes the worker. -/
theorem Draining.other {E : List (Packet π)} {s s' : State π Unit} (h : Draining E s)
    (hrun : s'.isRunning = s.isRunning) (howner : Cleared (s'.pc (.owner ())))
    (hproc : s'.hasProcessor = s.hasProcessor) (hbal : s'.Balanced)
    (hkept : ∀ e ∈ E, e ∈ s'.queue.enqueued) (hret : s'.returns = s.returns)
    (hworker : s'.pc .worker = s.pc .worker ∨ s'.pc .worker = .woken) : Draining E s' where
  isRunning := hrun.trans h.isRunning
  owner := howner
  worker := by
    rcases hworker with heq | heq <;> rw [heq]
    · exact h.worker
    · simp
  hasProcessor := hproc.trans h.hasProcessor
  balanced := hbal
  kept := hkept
  drained := by
    rw [hret]
    rcases hworker with heq | heq <;> rw [heq]
    · exact h.drained
    · simp

theorem draining_worker {E : List (Packet π)} {s : State π Unit} {a : Action π Unit}
    (h : Draining E s) (hen : Enabled s a) (ha : a.OfWorker) : Draining E (next s a) := by
  obtain ⟨f, hmove⟩ := worker_step hen ha
  refine ⟨hmove.isRunning.trans h.isRunning, ?_, ?_, hmove.hasProcessor.trans h.hasProcessor,
    balanced_next s a h.balanced hen fun _ => h.hasProcessor,
    fun e he => enqueued_next s a (h.kept e he), ?_⟩
  · rw [hmove.pc]
    simpa using h.owner
  · rw [hmove.pc, Function.update_self]
    exact hmove.stays
  · rw [hmove.pc, Function.update_self]
    intro hended e he
    rcases hended with hf | hf
    · obtain ⟨hpc, hempty⟩ := hmove.exit hf
      have hret : e ∈ s.returns :=
        h.balanced.mem_returns hempty (by simp [hpc, held]) (by simp [hpc, inCall]) (h.kept e he)
      exact returns_next s a hret
    · exact returns_next s a (h.drained (Or.inl (hmove.finished hf)) e he)

theorem notify_worker_eq (s : State π Unit) :
    s.notify.pc .worker = s.pc .worker ∨ s.notify.pc .worker = .woken := by
  rcases notify_cases s with ⟨-, heq⟩ | ⟨-, heq⟩ <;> rw [heq]
  · exact Or.inr (by simp)
  · exact Or.inl rfl

theorem draining_next {E : List (Packet π)} (s : State π Unit) (a : Action π Unit)
    (h : Draining E s) (hen : Enabled s a) (hno : ¬Returns a) : Draining E (next s a) := by
  by_cases ha : a.OfWorker
  · exact draining_worker h hen ha
  have hbal := balanced_next s a h.balanced hen fun _ => h.hasProcessor
  have hkept : ∀ e ∈ E, e ∈ (next s a).queue.enqueued := fun e he => enqueued_next s a (h.kept e he)
  -- the owner is in the second half of `Stop`, so it takes none of its other steps
  have howner := h.owner
  cases a with
  | enqueue i item =>
      exact h.other rfl (by simpa [next] using howner) rfl hbal hkept rfl (Or.inl (by simp [next]))
  | notifyOne i =>
      exact h.other (by simp [next]) (by simpa [next] using howner) (by simp [next]) hbal hkept
        (by simp [next]) (by simpa [next] using notify_worker_eq s)
  | setProcessor o nonEmpty => simp [show s.pc (.owner ()) = .idle from hen.1, Cleared] at howner
  | start o => simp [show s.pc (.owner ()) = .idle from hen.1, Cleared] at howner
  | spawn o => simp [show s.pc (.owner ()) = .spawn from hen.1, Cleared] at howner
  | stop o => simp [show s.pc (.owner ()) = .idle from hen.1, Cleared] at howner
  | clear o => simp [show s.pc (.owner ()) = .clear from hen, Cleared] at howner
  | endLock o =>
      exact h.other rfl (by simp [next, Cleared]) rfl hbal hkept rfl (Or.inl (by simp [next]))
  | notifyAll o =>
      exact h.other (by simp [next]) (by simp [next, Cleared]) (by simp [next]) hbal hkept
        (by simp [next]) (by simpa [next] using notify_worker_eq s)
  | joinable o =>
      exact h.other rfl (by simp [next, Cleared]) rfl hbal hkept rfl (Or.inl (by simp [next]))
  | notJoinable o => exact absurd trivial hno
  | join o => exact absurd trivial hno
  | _ => exact absurd trivial ha

/-- The clear of the flag starts the drain, if there is a worker. -/
theorem draining_clear {s : State π Unit} (halt : Alternates s.pc s.isRunning)
    (hbal : s.Balanced) (hinst : Installed s.pc s.hasProcessor) (hworker : s.pc .worker ≠ .idle)
    (hen : Enabled s (.clear ())) : Draining s.queue.enqueued (next s (.clear ())) := by
  have hpc : s.pc (.owner ()) = .clear := hen
  have hrun : s.isRunning = true := halt.started hworker (by simp [hpc, Cleared])
  have hstay : ¬Leaving (s.pc .worker) := fun hl => absurd (halt.leaving hl) (by simp [hrun])
  refine ⟨rfl, by simp [next, Cleared], by simpa [next] using hworker, hinst (Or.inl hworker), ?_,
    fun e he => he, ?_⟩
  · exact balanced_next s _ hbal hen fun _ => hinst (Or.inl hworker)
  · intro hout
    refine absurd ?_ hstay
    rcases hout with hout | hout
    · simp [show s.pc .worker = .exit by simpa [next] using hout, Leaving]
    · simp [show s.pc .worker = .finished by simpa [next] using hout, Leaving]

/-- **`Stop` drains.**  Take a `Stop` that finds a worker: the state `s₁` in which it clears
`_isRunning`, and the state `s₂` in which it returns.  Every packet pushed before `s₁` has been
processed in `s₂`, and what waits in `s₂` was pushed later. -/
theorem stop_drains {tr : List (State π Unit × Action π Unit)} {s : State π Unit}
    (hr : (executeQueue π Unit).Run tr s) (hg : Guarded ProcessorSet tr)
    {pre mid post : List (State π Unit × Action π Unit)} {s₁ s₂ : State π Unit}
    {a : Action π Unit} (htr : tr = pre ++ (s₁, .clear ()) :: (mid ++ (s₂, a) :: post))
    (hworker : s₁.pc .worker ≠ .idle) (hmid : ∀ e ∈ mid, ¬Returns e.2) (ha : Returns a) :
    (∀ e ∈ s₁.queue.enqueued, e ∈ s₂.returns) ∧
      ∀ e ∈ s₂.queue.pending, e ∉ s₁.queue.enqueued := by
  obtain ⟨hrun₁, hen₁⟩ := hr.split htr
  obtain ⟨hbal, hinst⟩ := balanced_of_run hrun₁ fun x hx => hg x (by simp [htr, hx])
  have hcut : tr = (pre ++ (s₁, .clear ()) :: mid) ++ (s₂, a) :: post := by simp [htr]
  obtain ⟨hrun₂, hen₂⟩ := hr.split hcut
  have hdrain : Draining s₁.queue.enqueued s₂ :=
    hrun₂.since (G := fun _ a => ¬Returns a)
      (fun hen => draining_clear (alternates_of_run hrun₁) hbal hinst hworker hen)
      (fun s a _ hQ hen hno => draining_next s a hQ hen hno) rfl hmid
  have hdone : ∀ e ∈ s₁.queue.enqueued, e ∈ s₂.returns := by
    cases a with
    | join o => exact hdrain.drained (Or.inr hen₂.2)
    | notJoinable o => exact absurd hen₂.2 hdrain.worker
    | _ => exact absurd ha (by simp [Returns])
  refine ⟨hdone, ?_⟩
  intro e hpending he
  -- what has been processed has left the queue
  have hdeq : e ∈ s₂.queue.dequeued := by
    rw [hdrain.balanced.handed, hdrain.balanced.completed]
    simp [hdone e he]
  exact ProducerQueue.not_pending_of_dequeued hdeq hpending

/-- A packet is pushed before the worker has looked at the queue, and `Stop` is called. -/
def stopBefore : List (Action Unit Unit) :=
  [.setProcessor () true, .start (), .spawn (), .enqueue () ⟨.REQ_ECHO, 7, [1, 2], 2⟩, .stop ()]

/-- The worker finds the flag clear, processes the packet, on which the processor throws, and
returns. -/
def stopAfter : List (Action Unit Unit) :=
  [.endLock (), .lock, .predRunning, .testRunning, .testPending, .unlock, .hasPending,
   .tryDequeue ⟨(), 0, ⟨.REQ_ECHO, 7, [1, 2], 2⟩⟩, .invoke ⟨(), 0, ⟨.REQ_ECHO, 7, [1, 2], 2⟩⟩,
   .finish ⟨(), 0, ⟨.REQ_ECHO, 7, [1, 2], 2⟩⟩ .exception, .hasPending, .lock, .predRunning,
   .testRunning, .testPending, .exit, .notifyAll (), .joinable ()]

theorem stop_drains_one :
    ⟨(), 0, ⟨.REQ_ECHO, 7, [1, 2], 2⟩⟩ ∈
      ((executeQueue Unit Unit).after init (stopBefore ++ .clear () :: stopAfter)).returns := by
  have hadmits : (executeQueue Unit Unit).Admits init
      (stopBefore ++ .clear () :: (stopAfter ++ [.join ()])) := by decide
  have hguard : Guarded ProcessorSet ((executeQueue Unit Unit).trace init
      (stopBefore ++ .clear () :: (stopAfter ++ [.join ()]))) := by
    simp [Guarded, System.trace, stopBefore, stopAfter, ProcessorSet, executeQueue, next]
  have htr : (executeQueue Unit Unit).trace init
        (stopBefore ++ .clear () :: (stopAfter ++ [.join ()]))
      = (executeQueue Unit Unit).trace init stopBefore
        ++ ((executeQueue Unit Unit).after init stopBefore, .clear ()) ::
          ((executeQueue Unit Unit).trace
              ((executeQueue Unit Unit).after init (stopBefore ++ [.clear ()])) stopAfter
            ++ ((executeQueue Unit Unit).after init (stopBefore ++ .clear () :: stopAfter),
                .join ()) :: []) := rfl
  have hdone := stop_drains (run_of_admits hadmits) hguard htr (by decide)
    (by simp [System.trace, stopAfter, Returns]) trivial
  exact hdone.1 _ (by decide)

end Core.PacketExecuteQueue
