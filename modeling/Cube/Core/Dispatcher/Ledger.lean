/-
The account the worker keeps of its packets.

Every packet that has left `_queue` was handed to the processor, except the one the worker has just
taken; and every call of the processor has finished, except the one the worker is in.  It holds as
long as `Start` is called only with a processor set: without one the loop in `ProcessPackets`
takes packets and hands them to nobody.
-/
import Cube.Core.Dispatcher.StartStop

namespace Core.PacketExecuteQueue

open Library System

section

variable {π ω : Type}

/-- The packet the worker has taken and not yet handed to the processor. -/
def held : Point π → List (Packet π)
  | .invoke e => [e]
  | _ => []

/-- The packet the processor is working on. -/
def inCall : Point π → List (Packet π)
  | .calling e => [e]
  | _ => []

theorem held_length (f : Point π) : (held f).length ≤ 1 := by
  cases f <;> simp [held]

/-- What left the queue and what the processor was called with, for a worker at point `w`. -/
structure Ledger (dequeued calls returns : List (Packet π)) (w : Point π) : Prop where
  handed : dequeued = calls ++ held w
  completed : calls = returns ++ inCall w

/-- The worker moves without a packet. -/
theorem Ledger.move {dequeued calls returns : List (Packet π)} {w f : Point π}
    (h : Ledger dequeued calls returns w) (hheld : held f = held w)
    (hcall : inCall f = inCall w) : Ledger dequeued calls returns f where
  handed := by rw [hheld]; exact h.handed
  completed := by rw [hcall]; exact h.completed

variable [DecidableEq π] [DecidableEq ω]

/-- The ledger of a state. -/
def State.Balanced (s : State π ω) : Prop :=
  Ledger s.queue.dequeued s.calls s.returns (s.pc .worker)

theorem balanced_notify {s : State π ω} (h : s.Balanced) : s.notify.Balanced := by
  rcases notify_cases s with ⟨hpc, heq⟩ | ⟨-, heq⟩ <;> rw [heq]
  · have hmove := Ledger.move (f := .woken) h (by simp [hpc, held]) (by simp [hpc, inCall])
    simpa [State.Balanced] using hmove
  · exact h

/-- A step of the worker that moves no packet. -/
theorem State.Balanced.goto {s : State π ω} (h : s.Balanced) {f : Point π}
    (hheld : held f = held (s.pc .worker)) (hcall : inCall f = inCall (s.pc .worker)) :
    (s.goto .worker f).Balanced := by
  have hmove := Ledger.move h hheld hcall
  simpa [State.Balanced] using hmove

theorem balanced_next (s : State π ω) (a : Action π ω) (h : s.Balanced) (hen : Enabled s a)
    (hproc : s.pc .worker ≠ .idle → s.hasProcessor = true) : (next s a).Balanced := by
  cases a with
  | enqueue i item => simpa [State.Balanced, next] using h
  | notifyOne i => simpa [State.Balanced, next] using balanced_notify h
  | setProcessor o nonEmpty => exact h
  | start o => simpa [State.Balanced, next] using h
  | spawn o =>
      have hmove := h.goto (f := .lock) (by simp [hen.2, held]) (by simp [hen.2, inCall])
      simpa [State.Balanced, next] using hmove
  | stop o => simpa [State.Balanced, next] using h
  | clear o => simpa [State.Balanced, next] using h
  | endLock o => simpa [State.Balanced, next] using h
  | notifyAll o => simpa [State.Balanced, next] using balanced_notify h
  | joinable o => simpa [State.Balanced, next] using h
  | notJoinable o => simpa [State.Balanced, next] using h
  | join o =>
      have hmove := h.goto (f := .idle) (by simp [hen.2, held]) (by simp [hen.2, inCall])
      simpa [State.Balanced, next] using hmove
  | lock => exact h.goto (by simp [hen.1, held]) (by simp [hen.1, inCall])
  | predRunning =>
      have hpc : s.pc .worker = .predRunning := hen
      simp only [next]
      split <;> exact h.goto (by simp [hpc, held]) (by simp [hpc, inCall])
  | predPending =>
      have hpc : s.pc .worker = .predPending := hen
      simp only [next]
      split <;> exact h.goto (by simp [hpc, held]) (by simp [hpc, inCall])
  | block =>
      have hpc : s.pc .worker = .block := hen
      exact h.goto (by simp [hpc, held]) (by simp [hpc, inCall])
  | wake =>
      have hpc : s.pc .worker = .waiting := hen
      exact h.goto (by simp [hpc, held]) (by simp [hpc, inCall])
  | relock => exact h.goto (by simp [hen.1, held]) (by simp [hen.1, inCall])
  | testRunning =>
      have hpc : s.pc .worker = .testRunning := hen
      simp only [next]
      split <;> exact h.goto (by simp [hpc, held]) (by simp [hpc, inCall])
  | testPending =>
      have hpc : s.pc .worker = .testPending := hen
      simp only [next]
      split <;> exact h.goto (by simp [hpc, held]) (by simp [hpc, inCall])
  | unlock =>
      have hpc : s.pc .worker = .unlock := hen
      exact h.goto (by simp [hpc, held]) (by simp [hpc, inCall])
  | exit =>
      have hpc : s.pc .worker = .exit := hen
      exact h.goto (by simp [hpc, held]) (by simp [hpc, inCall])
  | hasPending =>
      have hpc : s.pc .worker = .hasPending := hen
      simp only [next]
      split <;> exact h.goto (by simp [hpc, held]) (by simp [hpc, inCall])
  | tryDequeue e =>
      have hhanded := h.handed
      have hcompleted := h.completed
      simp only [hen.1, held, inCall, List.append_nil] at hhanded hcompleted
      refine ⟨?_, ?_⟩
      · simp [next, ProducerQueue.dequeueFrom_dequeued hen.2, hhanded, held]
      · simp [next, hcompleted, inCall]
  | tryDequeueFalse => exact h.goto (by simp [hen.1, held]) (by simp [hen.1, inCall])
  | invoke e =>
      have hpc : s.pc .worker = .invoke e := hen
      have hset : s.hasProcessor = true := hproc (by simp [hpc])
      have hhanded := h.handed
      have hcompleted := h.completed
      simp only [hpc, held, inCall, List.append_nil] at hhanded hcompleted
      refine ⟨?_, ?_⟩
      · simp [next, hset, hhanded, held]
      · simp [next, hset, hcompleted, inCall]
  | finish e outcome =>
      have hpc : s.pc .worker = .calling e := hen
      have hhanded := h.handed
      have hcompleted := h.completed
      simp only [hpc, held, inCall, List.append_nil] at hhanded hcompleted
      refine ⟨?_, ?_⟩
      · simp [next, hhanded, held]
      · simp [next, hcompleted, inCall]

/-! ### What only grows -/

theorem enqueued_next (s : State π ω) (a : Action π ω) {e : Packet π}
    (h : e ∈ s.queue.enqueued) : e ∈ (next s a).queue.enqueued := by
  cases a <;> simp only [next] <;> (try split) <;> simp [h]

theorem dequeued_next (s : State π ω) (a : Action π ω) {e : Packet π}
    (h : e ∈ s.queue.dequeued) : e ∈ (next s a).queue.dequeued := by
  cases a <;> simp only [next] <;> (try split) <;> simp [ProducerQueue.dequeueFrom, h]

theorem calls_next (s : State π ω) (a : Action π ω) {e : Packet π} (h : e ∈ s.calls) :
    e ∈ (next s a).calls := by
  cases a <;> simp only [next] <;> (try split) <;> simp [h]

theorem returns_next (s : State π ω) (a : Action π ω) {e : Packet π} (h : e ∈ s.returns) :
    e ∈ (next s a).returns := by
  cases a <;> simp only [next] <;> (try split) <;> simp [h]

end

/-! ### A processor in place -/

section

variable {π : Type} [DecidableEq π]

/-- The condition on `Start`: a processor has been set. -/
def ProcessorSet (s : State π Unit) : Action π Unit → Prop
  | .start _ => s.hasProcessor = true
  | _ => True

/-- From `Start` on, as long as there is a worker, there is a processor. -/
def Installed (pc : Party π Unit → Point π) (hasProcessor : Bool) : Prop :=
  pc .worker ≠ .idle ∨ pc (.owner ()) = .spawn → hasProcessor = true

/-- Anybody moves, but no worker is made and no `Start` begun. -/
theorem Installed.move {pc : Party π Unit → Point π} {hasProcessor : Bool}
    (h : Installed pc hasProcessor) {p : Party π Unit} {f : Point π}
    (hworker : p = .worker → pc .worker ≠ .idle) (howner : p ≠ .worker → f ≠ .spawn) :
    Installed (Function.update pc p f) hasProcessor := by
  intro hor
  by_cases hp : p = .worker
  · exact h (Or.inl (hworker hp))
  · rw [Function.update_of_ne (Ne.symm hp)] at hor
    rcases hor with hw | ho
    · exact h (Or.inl hw)
    · by_cases hpo : .owner () = p
      · subst hpo
        exact absurd (by simpa using ho) (howner hp)
      · rw [Function.update_of_ne hpo] at ho
        exact h (Or.inr ho)

theorem installed_notify {s : State π Unit} (h : Installed s.pc s.hasProcessor) :
    Installed s.notify.pc s.hasProcessor := by
  rcases notify_cases s with ⟨hpc, heq⟩ | ⟨-, heq⟩ <;> rw [heq]
  · exact h.move (fun _ => by simp [hpc]) (by simp)
  · exact h

theorem installed_next (s : State π Unit) (a : Action π Unit) (h : Installed s.pc s.hasProcessor)
    (hen : Enabled s a) (hg : ProcessorSet s a) :
    Installed (next s a).pc (next s a).hasProcessor := by
  by_cases ha : a.OfWorker
  · obtain ⟨f, hmove⟩ := worker_step hen ha
    rw [hmove.pc, hmove.hasProcessor]
    exact h.move (fun _ => hmove.alive) (by simp)
  cases a with
  | enqueue i item => exact h.move (by simp) (by simp)
  | notifyOne i =>
      have hmove := (installed_notify h).move (p := .producer i) (f := .idle) (by simp) (by simp)
      simpa [next] using hmove
  | setProcessor o nonEmpty =>
      have ho : s.pc (.owner ()) = .idle := hen.1
      intro hneeds
      rcases hneeds with hw | hspawn
      · exact absurd hen.2 hw
      · exact absurd (ho.symm.trans hspawn) (by simp)
  | start o => exact fun _ => hg
  | spawn o =>
      have ho : s.pc (.owner ()) = .spawn := hen.1
      exact fun _ => h (Or.inr ho)
  | stop o => exact h.move (by simp) (by simp)
  | clear o => exact h.move (by simp) (by simp)
  | endLock o => exact h.move (by simp) (by simp)
  | notifyAll o =>
      have hmove := (installed_notify h).move (p := .owner ()) (f := .joinable) (by simp) (by simp)
      simpa [next] using hmove
  | joinable o => exact h.move (by simp) (by simp)
  | notJoinable o => exact h.move (by simp) (by simp)
  | join o => exact fun _ => h (Or.inl (by simp [hen.2]))
  | _ => exact absurd trivial ha

/-- With a processor set at every `Start`, the ledger is balanced in every state. -/
theorem balanced_of_run {tr : List (State π Unit × Action π Unit)} {s : State π Unit}
    (hr : (executeQueue π Unit).Run tr s) (hg : Guarded ProcessorSet tr) :
    s.Balanced ∧ Installed s.pc s.hasProcessor :=
  hr.invariant_of_guarded (I := fun s => s.Balanced ∧ Installed s.pc s.hasProcessor)
    ⟨⟨rfl, rfl⟩, by simp [Installed, executeQueue, init]⟩
    (fun s a h hen hset =>
      ⟨balanced_next s a h.1 hen fun hw => h.2 (Or.inl hw), installed_next s a h.2 hen hset⟩) hg

end

end Core.PacketExecuteQueue
