/-
What `_mutex` protects.

`Stop` clears `_isRunning` with `_mutex` held, and the worker holds it from the evaluation of the
predicate to the moment it blocks.  So the flag the predicate has seen set cannot be cleared before
the worker is blocked, and a clear that comes later is followed by a `notify_all` that finds it.
-/
import Cube.Core.Dispatcher.WorkerStep

namespace Core.PacketExecuteQueue

open Library System

variable {π ω : Type} [DecidableEq π] [DecidableEq ω]

/-- The points between a lock of `_mutex` and its release. -/
def Inside : Point π → Prop
  | .clear | .endLock => True
  | .predRunning | .predPending | .block => True
  | .testRunning | .testPending | .unlock | .exit => True
  | _ => False

/-- The points of `Stop` between the clear of `_isRunning` and `notify_all`. -/
def Stopping : Point π → Prop
  | .endLock | .notifyAll => True
  | _ => False

theorem locked_notify {s : State π ω} (h : Locked Inside s.pc s.mutex) :
    Locked Inside s.notify.pc s.mutex := by
  rcases notify_cases s with ⟨hpc, heq⟩ | ⟨-, heq⟩ <;> rw [heq]
  · exact h.move (by simp [Inside, hpc])
  · exact h

/-- `_mutex` is owned by the thread that stands inside. -/
theorem locked_next (s : State π ω) (a : Action π ω) (h : Locked Inside s.pc s.mutex)
    (hen : Enabled s a) : Locked Inside (next s a).pc (next s a).mutex := by
  cases a with
  | enqueue i item =>
      have hpc : s.pc (.producer i) = .idle := hen
      exact h.move (by simp [Inside, hpc])
  | notifyOne i =>
      have hpc : s.pc (.producer i) = .notifyOne := hen
      have hmove := (locked_notify h).move (a := .producer i) (f := .idle) (by simp [Inside, hpc])
      simpa [next] using hmove
  | setProcessor o nonEmpty => exact h
  | start o => exact h.move (by simp [Inside, hen.1])
  | spawn o =>
      have hworker := h.move (a := .worker) (f := .lock) (by simp [Inside, hen.2])
      exact hworker.move (by simp [Inside, hen.1])
  | stop o =>
      have hfree : Locked Inside s.pc none := hen.2 ▸ h
      exact hfree.acquire trivial
  | clear o =>
      have hpc : s.pc (.owner o) = .clear := hen
      exact h.move (by simp [Inside, hpc])
  | endLock o =>
      have hpc : s.pc (.owner o) = .endLock := hen
      exact h.release (by simp [Inside, hpc]) (by simp [Inside])
  | notifyAll o =>
      have hpc : s.pc (.owner o) = .notifyAll := hen
      have hmove := (locked_notify h).move (a := .owner o) (f := .joinable) (by simp [Inside, hpc])
      simpa [next] using hmove
  | joinable o => exact h.move (by simp [Inside, hen.1])
  | notJoinable o => exact h.move (by simp [Inside, hen.1])
  | join o =>
      have hworker := h.move (a := .worker) (f := .idle) (by simp [Inside, hen.2])
      exact hworker.move (by simp [Inside, hen.1])
  | lock =>
      have hfree : Locked Inside s.pc none := hen.2 ▸ h
      exact hfree.acquire trivial
  | predRunning =>
      have hpc : s.pc .worker = .predRunning := hen
      simp only [next]
      split <;> exact h.move (by simp [Inside, hpc])
  | predPending =>
      have hpc : s.pc .worker = .predPending := hen
      simp only [next]
      split <;> exact h.move (by simp [Inside, hpc])
  | block =>
      have hpc : s.pc .worker = .block := hen
      exact h.release (by simp [Inside, hpc]) (by simp [Inside])
  | wake =>
      have hpc : s.pc .worker = .waiting := hen
      exact h.move (by simp [Inside, hpc])
  | relock =>
      have hfree : Locked Inside s.pc none := hen.2 ▸ h
      exact hfree.acquire trivial
  | testRunning =>
      have hpc : s.pc .worker = .testRunning := hen
      simp only [next]
      split <;> exact h.move (by simp [Inside, hpc])
  | testPending =>
      have hpc : s.pc .worker = .testPending := hen
      simp only [next]
      split <;> exact h.move (by simp [Inside, hpc])
  | unlock =>
      have hpc : s.pc .worker = .unlock := hen
      exact h.release (by simp [Inside, hpc]) (by simp [Inside])
  | exit =>
      have hpc : s.pc .worker = .exit := hen
      exact h.release (by simp [Inside, hpc]) (by simp [Inside])
  | hasPending =>
      have hpc : s.pc .worker = .hasPending := hen
      simp only [next]
      split <;> exact h.move (by simp [Inside, hpc])
  | tryDequeue e => exact h.move (by simp [Inside, hen.1])
  | tryDequeueFalse => exact h.move (by simp [Inside, hen.1])
  | invoke e =>
      have hpc : s.pc .worker = .invoke e := hen
      simp only [next]
      split <;> exact h.move (by simp [Inside, hpc])
  | finish e outcome =>
      have hpc : s.pc .worker = .calling e := hen
      exact h.move (by simp [Inside, hpc])

theorem locked_of_run {tr : List (State π ω × Action π ω)} {s : State π ω}
    (hr : (executeQueue π ω).Run tr s) : Locked Inside s.pc s.mutex :=
  hr.invariant (I := fun s => Locked Inside s.pc s.mutex)
    (fun p => by simp [executeQueue, init, Inside]) locked_next

/-! ### The flag and the wait -/

/-- Once the predicate has seen the flag set, it stays set until the worker is blocked; and a
blocked worker whose flag is clear is going to be notified. -/
structure Watched (pc : Party π ω → Point π) (isRunning : Bool) : Prop where
  checked : pc .worker = .predPending ∨ pc .worker = .block → isRunning = true
  waiting : pc .worker = .waiting → isRunning = false → ∃ o, Stopping (pc (.owner o))

/-- A move that neither brings the worker to the wait nor takes a `Stop` past its notification. -/
theorem Watched.move {pc : Party π ω → Point π} {isRunning : Bool} (h : Watched pc isRunning)
    {p : Party π ω} {f : Point π}
    (hworker : p = .worker → f ≠ .predPending ∧ f ≠ .block ∧ f ≠ .waiting)
    (hstop : Stopping (pc p) → Stopping f) : Watched (Function.update pc p f) isRunning where
  checked := by
    by_cases hp : p = .worker
    · subst hp
      have hf := hworker rfl
      simp [hf]
    · simpa [Function.update_of_ne (Ne.symm hp)] using h.checked
  waiting := by
    intro hw hr
    by_cases hp : p = .worker
    · subst hp
      rw [Function.update_self] at hw
      exact absurd hw (hworker rfl).2.2
    · rw [Function.update_of_ne (Ne.symm hp)] at hw
      obtain ⟨o, ho⟩ := h.waiting hw hr
      refine ⟨o, ?_⟩
      by_cases hpo : .owner o = p
      · subst hpo
        simpa using hstop ho
      · rwa [Function.update_of_ne hpo]

theorem watched_notify {s : State π ω} (h : Watched s.pc s.isRunning) :
    Watched s.notify.pc s.isRunning := by
  rcases notify_cases s with ⟨hpc, heq⟩ | ⟨-, heq⟩ <;> rw [heq]
  · exact h.move (by simp) (by simp [Stopping, hpc])
  · exact h

/-- A step of the worker: it blocks only with the flag set. -/
theorem Watched.worker {s s' : State π ω} (h : Watched s.pc s.isRunning) {f : Point π}
    (hmove : WorkerMove s s' f) : Watched s'.pc s'.isRunning := by
  rw [hmove.pc, hmove.isRunning]
  refine ⟨?_, ?_⟩
  · rw [Function.update_self]
    intro hchecking
    rcases hchecking with hf | hf
    · exact hmove.predPending hf
    · exact h.checked (Or.inl (hmove.block hf).1)
  · rw [Function.update_self]
    intro hf hr
    have hset : s.isRunning = true := h.checked (Or.inr (hmove.waiting hf).1)
    exact absurd (hset.symm.trans hr) (by simp)

theorem watched_next (s : State π ω) (a : Action π ω) (hl : Locked Inside s.pc s.mutex)
    (h : Watched s.pc s.isRunning) (hen : Enabled s a) :
    Watched (next s a).pc (next s a).isRunning := by
  by_cases ha : a.OfWorker
  · obtain ⟨f, hmove⟩ := worker_step hen ha
    exact h.worker hmove
  cases a with
  | enqueue i item =>
      have hpc : s.pc (.producer i) = .idle := hen
      exact h.move (by simp) (by simp [Stopping, hpc])
  | notifyOne i =>
      have hpc : s.pc (.producer i) = .notifyOne := hen
      have hmove := (watched_notify h).move (p := .producer i) (f := .idle) (by simp)
        (by simp [Stopping, hpc])
      simpa [next] using hmove
  | setProcessor o nonEmpty => exact h
  | start o => exact ⟨fun _ => rfl, fun _ hr => absurd hr (by simp [next])⟩
  | spawn o =>
      have hworker := h.move (p := .worker) (f := .lock) (by simp) (by simp [Stopping, hen.2])
      exact hworker.move (by simp) (by simp [Stopping, hen.1])
  | stop o => exact h.move (by simp) (by simp [Stopping, hen.1])
  | clear o =>
      have hpc : s.pc (.owner o) = .clear := hen
      -- the caller of `Stop` is inside, so the worker is not
      have hout : ¬Inside (s.pc .worker) := by
        intro hin
        have heq := hl.exclusive (a := .owner o) (b := .worker) (by simp [Inside, hpc]) hin
        cases heq
      refine ⟨fun hw => ?_, fun _ _ => ⟨o, by simp [next, Stopping]⟩⟩
      refine absurd ?_ hout
      rcases hw with hw | hw
      · have hw' : s.pc .worker = .predPending := by simpa [next] using hw
        simp [hw', Inside]
      · have hw' : s.pc .worker = .block := by simpa [next] using hw
        simp [hw', Inside]
  | endLock o => exact h.move (by simp) fun _ => trivial
  | notifyAll o =>
      have hmove : Watched (Function.update s.notify.pc (.owner o) .joinable) s.isRunning :=
        ⟨by simpa using (watched_notify h).checked, fun hw => absurd hw (by simp [notify_worker])⟩
      simpa [next] using hmove
  | joinable o => exact h.move (by simp) (by simp [Stopping, hen.1])
  | notJoinable o => exact h.move (by simp) (by simp [Stopping, hen.1])
  | join o =>
      have hworker := h.move (p := .worker) (f := .idle) (by simp) (by simp [Stopping, hen.2])
      exact hworker.move (by simp) (by simp [Stopping, hen.1])
  | _ => exact absurd trivial ha

theorem watched_of_run {tr : List (State π ω × Action π ω)} {s : State π ω}
    (hr : (executeQueue π ω).Run tr s) : Watched s.pc s.isRunning := by
  have hinv := hr.invariant
    (I := fun s => Locked Inside s.pc s.mutex ∧ Watched s.pc s.isRunning)
    ⟨fun p => by simp [executeQueue, init, Inside], by simp [executeQueue, init], by
      simp [executeQueue, init]⟩
    (fun s a h hen => ⟨locked_next s a h.1 hen, watched_next s a h.1 h.2 hen⟩)
  exact hinv.2

end Core.PacketExecuteQueue
