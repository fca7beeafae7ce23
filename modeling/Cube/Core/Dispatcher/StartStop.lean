/-
One owner thread that starts and stops the queue.

With a single owner the calls of `Start` and `Stop` follow each other, and the flag, the
owner and the worker are in step: a worker that exists outside the second half of a `Stop`
has the flag set, and only a worker that has seen it cleared is on its way out.  `Stop` is
then never left waiting in `join` for a worker that sleeps.
-/
import Cube.Core.Dispatcher.Locking

namespace Core.PacketExecuteQueue

open Library System

/-- The points of `Stop` after the clear of `_isRunning`. -/
def Cleared {π : Type} : Point π → Prop
  | .endLock | .notifyAll | .joinable | .join => True
  | _ => False

variable {π : Type} [DecidableEq π]

/-- How the single owner, the worker and the flag go together. -/
structure Alternates (pc : Party π Unit → Point π) (isRunning : Bool) : Prop where
  started : pc .worker ≠ .idle → ¬Cleared (pc (.owner ())) → isRunning = true
  spawning : pc (.owner ()) = .spawn → pc .worker = .idle ∧ isRunning = true
  cleared : Cleared (pc (.owner ())) → isRunning = false
  joining : pc (.owner ()) = .join → pc .worker ≠ .idle
  leaving : Leaving (pc .worker) → isRunning = false

namespace Alternates

variable {pc : Party π Unit → Point π} {isRunning : Bool}

/-- A producer moves. -/
theorem producer (h : Alternates pc isRunning) (i : π) (f : Point π) :
    Alternates (Function.update pc (.producer i) f) isRunning where
  started := by simpa using h.started
  spawning := by simpa using h.spawning
  cleared := by simpa using h.cleared
  joining := by simpa using h.joining
  leaving := by simpa using h.leaving

/-- The worker, which exists, moves on. -/
theorem worker (h : Alternates pc isRunning) {f : Point π} (hold : pc .worker ≠ .idle)
    (hf : f ≠ .idle) (hleave : Leaving f → isRunning = false) :
    Alternates (Function.update pc .worker f) isRunning where
  started := by simpa [hf] using h.started hold
  spawning := by
    intro hspawn
    exact absurd (h.spawning (by simpa using hspawn)).1 hold
  cleared := by simpa using h.cleared
  joining := by simp [hf]
  leaving := by simpa using hleave

/-- The owner moves to a point of `Stop` before the clear, or returns. -/
theorem owner (h : Alternates pc isRunning) {f : Point π} (hspawn : f ≠ .spawn)
    (hf : ¬Cleared f) (hold : pc .worker = .idle ∨ ¬Cleared (pc (.owner ()))) :
    Alternates (Function.update pc (.owner ()) f) isRunning where
  started := by
    intro hw _
    have hw' : pc .worker ≠ .idle := by simpa using hw
    exact h.started hw' (hold.resolve_left hw')
  spawning := by simp [hspawn]
  cleared := by simp [hf]
  joining := by
    intro hjoin
    have hjoin' : f = .join := by simpa using hjoin
    exact absurd (by simp [hjoin', Cleared]) hf
  leaving := by simpa using h.leaving

/-- The owner moves on in `Stop` after the clear. -/
theorem stop (h : Alternates pc isRunning) {f : Point π} (hold : Cleared (pc (.owner ())))
    (hf : Cleared f) (hjoin : f = .join → pc .worker ≠ .idle) :
    Alternates (Function.update pc (.owner ()) f) isRunning where
  started := by simp [hf]
  spawning := by
    intro hspawn
    have hspawn' : f = .spawn := by simpa using hspawn
    exact absurd hf (by simp [hspawn', Cleared])
  cleared := fun _ => h.cleared hold
  joining := by simpa using hjoin
  leaving := by simpa using h.leaving

end Alternates

theorem alternates_notify {s : State π Unit} (h : Alternates s.pc s.isRunning) :
    Alternates s.notify.pc s.isRunning := by
  rcases notify_cases s with ⟨hpc, heq⟩ | ⟨-, heq⟩ <;> rw [heq]
  · exact h.worker (by simp [hpc]) (by simp) (by simp [Leaving])
  · exact h

theorem alternates_next (s : State π Unit) (a : Action π Unit) (h : Alternates s.pc s.isRunning)
    (hen : Enabled s a) : Alternates (next s a).pc (next s a).isRunning := by
  by_cases ha : a.OfWorker
  · obtain ⟨f, hmove⟩ := worker_step hen ha
    rw [hmove.pc, hmove.isRunning]
    exact h.worker hmove.alive hmove.stays fun hf => (hmove.leaving hf).elim id h.leaving
  cases a with
  | enqueue i item => exact h.producer i .notifyOne
  | notifyOne i => simpa [next] using (alternates_notify h).producer i .idle
  | setProcessor o nonEmpty => exact h
  | start o =>
      have hworker : s.pc .worker = .idle := hen.2
      exact ⟨fun _ _ => rfl, fun _ => ⟨by simpa [next] using hworker, rfl⟩,
        by simp [next, Cleared], by simp [next], by simp [next, hworker, Leaving]⟩
  | spawn o =>
      have hrun := (h.spawning hen.1).2
      refine ⟨fun _ _ => hrun, ?_, ?_, ?_, ?_⟩ <;> simp [next, Cleared, Leaving]
  | stop o => exact h.owner (by simp) (by simp [Cleared]) (Or.inr (by simp [hen.1, Cleared]))
  | clear o =>
      have hpc : s.pc (.owner ()) = .clear := hen
      refine ⟨?_, ?_, fun _ => rfl, ?_, fun _ => rfl⟩ <;> simp [next, Cleared]
  | endLock o =>
      have hpc : s.pc (.owner ()) = .endLock := hen
      exact h.stop (by simp [hpc, Cleared]) trivial (by simp)
  | notifyAll o =>
      have hpc : s.pc (.owner ()) = .notifyAll := hen
      have hstop := (alternates_notify h).stop (f := .joinable) (by simp [hpc, Cleared]) trivial
        (by simp)
      simpa [next] using hstop
  | joinable o => exact h.stop (by simp [hen.1, Cleared]) trivial fun _ => hen.2
  | notJoinable o => exact h.owner (by simp) (by simp [Cleared]) (Or.inl hen.2)
  | join o =>
      have hpc : s.pc (.owner ()) = .join := hen.1
      have hrun := h.cleared (by simp [hpc, Cleared])
      refine ⟨?_, ?_, ?_, ?_, ?_⟩ <;> simp [next, Cleared, Leaving]
  | _ => exact absurd trivial ha

theorem alternates_of_run {tr : List (State π Unit × Action π Unit)} {s : State π Unit}
    (hr : (executeQueue π Unit).Run tr s) : Alternates s.pc s.isRunning :=
  hr.invariant (I := fun s => Alternates s.pc s.isRunning)
    ⟨by simp [executeQueue, init], by simp [executeQueue, init],
      by simp [executeQueue, init, Cleared], by simp [executeQueue, init],
      by simp [executeQueue, init, Leaving]⟩
    alternates_next

/-- **`Stop` is never missed by the worker.**  A worker that is blocked although `_isRunning` is
clear has a `Stop` on its way to notify it, whoever calls `Start` and `Stop`.  With one owner,
`join` is never entered while the worker is blocked. -/
theorem stop_never_missed (π ω : Type) [DecidableEq π] [DecidableEq ω] :
    (∀ tr (s : State π ω), (executeQueue π ω).Run tr s → s.pc .worker = .waiting →
      s.isRunning = false → ∃ o, Stopping (s.pc (.owner o))) ∧
    ∀ tr (s : State π Unit), (executeQueue π Unit).Run tr s → s.pc (.owner ()) = .join →
      s.pc .worker ≠ .waiting := by
  refine ⟨?_, ?_⟩
  · intro tr s hr
    exact (watched_of_run hr).waiting
  · intro tr s hr hjoin hwait
    have hclear : s.isRunning = false := (alternates_of_run hr).cleared (by simp [hjoin, Cleared])
    obtain ⟨o, ho⟩ := (watched_of_run hr).waiting hwait hclear
    rw [show Party.owner o = (.owner () : Party π Unit) from rfl, hjoin] at ho
    exact ho

/-- The worker blocks, and then `Stop` clears the flag. -/
def stopWhileBlocked : List (Action Unit Unit) :=
  [.start (), .spawn (), .lock, .predRunning, .predPending, .block, .stop (), .clear ()]

theorem stop_never_missed_blocked :
    ∃ o, Stopping (((executeQueue Unit Unit).after init stopWhileBlocked).pc (.owner o)) := by
  have hadmits : (executeQueue Unit Unit).Admits init stopWhileBlocked := by decide
  exact (stop_never_missed Unit Unit).1 _ _ (run_of_admits hadmits) (by decide) (by decide)

end Core.PacketExecuteQueue
