/-
Lost wakeups of `Enqueue`.

`Stop` changes the flag with `_mutex` held, so its change cannot fall between the worker's predicate
and the moment the worker blocks.  `Enqueue` pushes without `_mutex`.  Its push and its `notify_one`
can both fall there: the predicate has found the queue empty, and the notification finds nobody
blocked.  Then the worker blocks with a packet waiting and nobody about to wake it.

That is the only way.  In a run whose notifications all avoid that moment, a blocked worker with a
packet waiting always has a producer on its way to `notify_one`.  And a notification that does not
avoid it can be followed by steps to the lost wakeup: the other notifications are sent first, then
the worker blocks.
-/
import Mathlib.Data.Set.Card
import Cube.Core.Dispatcher.Locking

namespace Core.PacketExecuteQueue

open Library System

variable {π ω : Type} [DecidableEq π] [DecidableEq ω]

/-- The worker is blocked with a packet waiting, and nobody is about to notify it. -/
structure LostWakeup (s : State π ω) : Prop where
  blocked : s.pc .worker = .waiting
  pending : s.queue.pending ≠ []
  noProducer : ∀ i, s.pc (.producer i) ≠ .notifyOne
  noStop : ∀ o, ¬Stopping (s.pc (.owner o))

/-- The condition on `notify_one`: if the worker is about to block, then on an empty queue. -/
def Heard (s : State π ω) : Action π ω → Prop
  | .notifyOne _ => s.pc .worker = .block → s.queue.pending = []
  | _ => True

/-! ### When no notification is wasted -/

/-- A packet that waits while the worker blocks has a producer about to announce it. -/
def Announced (pc : Party π ω → Point π) (pending : List (Packet π)) : Prop :=
  pc .worker = .block ∨ pc .worker = .waiting → pending ≠ [] → ∃ i, pc (.producer i) = .notifyOne

/-- A worker that is elsewhere needs no announcement. -/
theorem announced_away {pc : Party π ω → Point π} {pending : List (Packet π)} {f : Point π}
    (hf : f ≠ .block ∧ f ≠ .waiting) : Announced (Function.update pc .worker f) pending := by
  intro hw
  simp [hf] at hw

/-- Somebody else than the worker and the announcing producer moves. -/
theorem Announced.move {pc : Party π ω → Point π} {pending : List (Packet π)}
    (h : Announced pc pending) {p : Party π ω} {f : Point π} (hp : p ≠ .worker)
    (hpc : pc p ≠ .notifyOne) : Announced (Function.update pc p f) pending := by
  intro hw hne
  rw [Function.update_of_ne (Ne.symm hp)] at hw
  obtain ⟨i, hi⟩ := h hw hne
  have hip : .producer i ≠ p := fun heq => hpc (heq ▸ hi)
  exact ⟨i, by rwa [Function.update_of_ne hip]⟩

theorem announced_notify {s : State π ω} (h : Announced s.pc s.queue.pending) :
    Announced s.notify.pc s.queue.pending := by
  rcases notify_cases s with ⟨-, heq⟩ | ⟨-, heq⟩ <;> rw [heq]
  · exact announced_away (by simp)
  · exact h

/-- A step of the worker: it goes on to block only with an empty queue. -/
theorem Announced.worker {s s' : State π ω} (h : Announced s.pc s.queue.pending) {f : Point π}
    (hmove : WorkerMove s s' f) : Announced s'.pc s'.queue.pending := by
  rw [hmove.pc]
  intro hw hne
  rw [Function.update_self] at hw
  rcases hw with hf | hf
  · obtain ⟨-, hempty, hqueue⟩ := hmove.block hf
    exact absurd hempty (hqueue ▸ hne)
  · obtain ⟨hpc, hqueue⟩ := hmove.waiting hf
    obtain ⟨i, hi⟩ := h (Or.inl hpc) (hqueue ▸ hne)
    exact ⟨i, by simpa using hi⟩

theorem announced_next (s : State π ω) (a : Action π ω) (h : Announced s.pc s.queue.pending)
    (hen : Enabled s a) (hg : Heard s a) :
    Announced (next s a).pc (next s a).queue.pending := by
  by_cases ha : a.OfWorker
  · obtain ⟨f, hmove⟩ := worker_step hen ha
    exact h.worker hmove
  cases a with
  | enqueue i item => exact fun _ _ => ⟨i, by simp [next]⟩
  | notifyOne i =>
      intro hw hne
      have hw' : s.notify.pc .worker = .block :=
        (by simpa [next] using hw : _ ∨ _).resolve_right (notify_worker s)
      have hpc : s.pc .worker = .block := by
        rcases notify_cases s with ⟨-, heq⟩ | ⟨-, heq⟩ <;> rw [heq] at hw'
        · simp at hw'
        · exact hw'
      exact absurd (hg hpc) (by simpa [next] using hne)
  | setProcessor o nonEmpty => exact h
  | start o => exact h.move (by simp) (by simp [hen.1])
  | spawn o => exact (announced_away (f := .lock) (by simp)).move (by simp) (by simp [hen.1])
  | stop o => exact h.move (by simp) (by simp [hen.1])
  | clear o =>
      have hpc : s.pc (.owner o) = .clear := hen
      exact h.move (by simp) (by simp [hpc])
  | endLock o =>
      have hpc : s.pc (.owner o) = .endLock := hen
      exact h.move (by simp) (by simp [hpc])
  | notifyAll o =>
      have hpc : s.pc (.owner o) = .notifyAll := hen
      have hmove := (announced_notify h).move (p := .owner o) (f := .joinable) (by simp)
        (by simp [hpc])
      simpa [next] using hmove
  | joinable o => exact h.move (by simp) (by simp [hen.1])
  | notJoinable o => exact h.move (by simp) (by simp [hen.1])
  | join o => exact (announced_away (f := .idle) (by simp)).move (by simp) (by simp [hen.1])
  | _ => exact absurd trivial ha

theorem announced_of_run {tr : List (State π ω × Action π ω)} {s : State π ω}
    (hr : (executeQueue π ω).Run tr s) (hg : Guarded Heard tr) :
    Announced s.pc s.queue.pending :=
  hr.invariant_of_guarded (I := fun s => Announced s.pc s.queue.pending)
    (fun hw => by simp [executeQueue, init] at hw) announced_next hg

/-! ### When one is wasted -/

/-- The threads outside every call are all but finitely many. -/
def Settled (pc : Party π ω → Point π) : Prop := Set.Finite {p | pc p ≠ .idle}

theorem Settled.move {pc : Party π ω → Point π} (h : Settled pc) (p : Party π ω) (f : Point π) :
    Settled (Function.update pc p f) := by
  refine Set.Finite.subset (h.insert p) fun q hq => ?_
  by_cases hqp : q = p
  · exact Or.inl hqp
  · exact Or.inr (by simpa [Function.update_of_ne hqp] using hq)

theorem settled_notify {s : State π ω} (h : Settled s.pc) : Settled s.notify.pc := by
  rcases notify_cases s with ⟨-, heq⟩ | ⟨-, heq⟩ <;> rw [heq]
  · exact h.move .worker .woken
  · exact h

theorem settled_next (s : State π ω) (a : Action π ω) (h : Settled s.pc) (hen : Enabled s a) :
    Settled (next s a).pc := by
  by_cases ha : a.OfWorker
  · obtain ⟨f, hmove⟩ := worker_step hen ha
    rw [hmove.pc]
    exact h.move .worker f
  cases a with
  | setProcessor o nonEmpty => exact h
  | notifyOne i => exact (settled_notify h).move (.producer i) .idle
  | notifyAll o => exact (settled_notify h).move (.owner o) .joinable
  | spawn o => exact (h.move .worker .lock).move (.owner o) .idle
  | join o => exact (h.move .worker .idle).move (.owner o) .idle
  | enqueue i item => exact h.move (.producer i) .notifyOne
  | start o => exact h.move (.owner o) .spawn
  | stop o => exact h.move (.owner o) .clear
  | clear o => exact h.move (.owner o) .endLock
  | endLock o => exact h.move (.owner o) .notifyAll
  | joinable o => exact h.move (.owner o) .join
  | notJoinable o => exact h.move (.owner o) .idle
  | _ => exact absurd trivial ha

theorem settled_of_run {tr : List (State π ω × Action π ω)} {s : State π ω}
    (hr : (executeQueue π ω).Run tr s) : Settled s.pc :=
  hr.invariant (I := fun s => Settled s.pc) (by simp [Settled, executeQueue, init]) settled_next

/-- The threads about to notify. -/
def Announcing (pc : Party π ω → Point π) : Party π ω → Prop
  | .producer i => pc (.producer i) = .notifyOne
  | .owner o => pc (.owner o) = .notifyAll
  | .worker => False

/-- A thread that has sent its notification leaves the others as they are. -/
theorem announcing_lt {pc : Party π ω → Point π} (h : Settled pc) {p : Party π ω} {f : Point π}
    (hp : Announcing pc p) (hf : f ≠ .notifyOne ∧ f ≠ .notifyAll) :
    {q | Announcing (Function.update pc p f) q}.ncard < {q | Announcing pc q}.ncard := by
  have hfin : {q | Announcing pc q}.Finite := by
    refine Set.Finite.subset h fun q hq => ?_
    cases q <;> simp_all [Announcing]
  have hnot : ¬Announcing (Function.update pc p f) p := by
    cases p <;> simp [Announcing, hf]
  refine Set.ncard_lt_ncard ⟨fun q hq => ?_, fun hsub => hnot (hsub hp)⟩ hfin
  have hqp : q ≠ p := fun heq => hnot (heq ▸ hq)
  cases q with
  | producer i => simpa [Announcing, Function.update_of_ne hqp] using hq
  | owner o => simpa [Announcing, Function.update_of_ne hqp] using hq
  | worker => exact hq

/-- The worker is about to block although a packet waits. -/
structure Blocking (s : State π ω) : Prop where
  block : s.pc .worker = .block
  pending : s.queue.pending ≠ []
  locked : Locked Inside s.pc s.mutex
  settled : Settled s.pc

/-- A notification that finds the worker not yet blocked changes nothing for it. -/
theorem Blocking.notified {s : State π ω} (h : Blocking s) {a : Action π ω} {p : Party π ω}
    {f : Point π} (hen : Enabled s a) (hnext : next s a = s.notify.goto p f) (hp : p ≠ .worker) :
    Blocking (next s a) ∧ (next s a).pc = Function.update s.pc p f := by
  have hsame : s.notify = s := by
    rcases notify_cases s with ⟨hwait, -⟩ | ⟨-, heq⟩
    · exact absurd (h.block.symm.trans hwait) (by simp)
    · exact heq
  have hpc : (next s a).pc = Function.update s.pc p f := by rw [hnext, hsame, goto_pc]
  refine ⟨⟨?_, ?_, locked_next s a h.locked hen, settled_next s a h.settled hen⟩, hpc⟩
  · rw [hpc, Function.update_of_ne (Ne.symm hp)]
    exact h.block
  · rw [hnext, hsame]
    exact h.pending

/-- All notifications can be sent before the worker blocks. -/
theorem Blocking.silence {s : State π ω} (h : Blocking s) :
    ∃ acts, (executeQueue π ω).Admits s acts ∧ Blocking ((executeQueue π ω).after s acts) ∧
      ∀ p, ¬Announcing ((executeQueue π ω).after s acts).pc p := by
  refine reach_of_progress (M := executeQueue π ω) (I := Blocking)
    (G := fun s => ∀ p, ¬Announcing s.pc p) (fun s => {q | Announcing s.pc q}.ncard) ?_ s h
  intro s hs hgoal
  obtain ⟨p, hp⟩ : ∃ p, Announcing s.pc p := by simpa using hgoal
  cases p with
  | producer i =>
      obtain ⟨hblock, hpc⟩ := hs.notified (a := .notifyOne i) (p := .producer i) hp rfl (by simp)
      refine ⟨.notifyOne i, hp, hblock, ?_⟩
      show {q | Announcing (next s (.notifyOne i)).pc q}.ncard < _
      rw [hpc]
      exact announcing_lt hs.settled hp (by simp)
  | owner o =>
      obtain ⟨hblock, hpc⟩ := hs.notified (a := .notifyAll o) (p := .owner o) hp rfl (by simp)
      refine ⟨.notifyAll o, hp, hblock, ?_⟩
      show {q | Announcing (next s (.notifyAll o)).pc q}.ncard < _
      rw [hpc]
      exact announcing_lt hs.settled hp (by simp)
  | worker => exact hp.elim

/-- Then it blocks, and the wakeup is lost. -/
theorem Blocking.lost {s : State π ω} (h : Blocking s) (hquiet : ∀ p, ¬Announcing s.pc p) :
    LostWakeup (next s .block) where
  blocked := by simp [next]
  pending := h.pending
  noProducer := by
    intro i hi
    exact hquiet (.producer i) (by simpa [next, Announcing] using hi)
  noStop := by
    intro o ho
    have ho' : Stopping (s.pc (.owner o)) := by simpa [next] using ho
    cases hpc : s.pc (.owner o) <;> rw [hpc] at ho' <;> try exact ho'
    · -- the caller of `Stop` would hold the mutex that the worker holds
      have heq := h.locked.exclusive (a := .owner o) (b := .worker) (by simp [hpc, Inside])
        (by simp [h.block, Inside])
      cases heq
    · exact hquiet (.owner o) hpc

theorem lostWakeup_of_not_heard {tr : List (State π ω × Action π ω)} {s : State π ω}
    {a : Action π ω} (hr : (executeQueue π ω).Run tr s) (hen : Enabled s a) (hno : ¬Heard s a) :
    ∃ acts, (executeQueue π ω).Admits (next s a) acts ∧
      LostWakeup ((executeQueue π ω).after (next s a) acts) := by
  cases a with
  | notifyOne i =>
      obtain ⟨hblock, hne⟩ : s.pc .worker = .block ∧ s.queue.pending ≠ [] := by
        simpa [Heard] using hno
      have hs : Blocking s := ⟨hblock, hne, locked_of_run hr, settled_of_run hr⟩
      have hnext := (hs.notified (a := .notifyOne i) (p := .producer i) hen rfl (by simp)).1
      obtain ⟨acts, hadm, hend, hquiet⟩ := hnext.silence
      refine ⟨acts ++ [Action.block], admits_append hadm ⟨hend.block, trivial⟩, ?_⟩
      rw [after_append]
      exact hend.lost hquiet
  | _ => exact absurd trivial hno

/-- **No wakeup is lost** in a run whose notifications are all heard: none is sent between a
predicate that found the queue empty and the block, when a packet has come meanwhile.  One that
is sent then can be followed by a lost wakeup. -/
theorem no_lostWakeup_while_heard (π ω : Type) [DecidableEq π] [DecidableEq ω] :
    (∀ tr (s : State π ω), (executeQueue π ω).Run tr s → Guarded Heard tr → ¬LostWakeup s) ∧
    ∀ tr (s : State π ω) a, (executeQueue π ω).Run tr s → Enabled s a → ¬Heard s a →
      ∃ acts, (executeQueue π ω).Admits (next s a) acts ∧
        LostWakeup ((executeQueue π ω).after (next s a) acts) := by
  refine ⟨?_, ?_⟩
  · intro tr s hr hg hlost
    obtain ⟨i, hi⟩ := announced_of_run hr hg (Or.inr hlost.blocked) hlost.pending
    exact hlost.noProducer i hi
  · intro tr s a hr hen hno
    exact lostWakeup_of_not_heard hr hen hno

/-- The worker blocks, and then a packet comes and is announced. -/
def announcedPacket : List (Action Unit Unit) :=
  [.start (), .spawn (), .lock, .predRunning, .predPending, .block,
   .enqueue () ⟨.REQ_ECHO, 1, [], 0⟩, .notifyOne ()]

theorem no_lostWakeup_while_heard_announced :
    ¬LostWakeup ((executeQueue Unit Unit).after init announcedPacket) := by
  have hadmits : (executeQueue Unit Unit).Admits init announcedPacket := by decide
  refine (no_lostWakeup_while_heard Unit Unit).1 _ _ (run_of_admits hadmits) ?_
  simp [Guarded, System.trace, announcedPacket, Heard, executeQueue, next, State.goto]

/-- The predicate finds the queue empty; then a packet is pushed and announced; then the worker
blocks. -/
def unheardPacket : List (Action Unit Unit) :=
  [.start (), .spawn (), .lock, .predRunning, .predPending,
   .enqueue () ⟨.REQ_ECHO, 1, [], 0⟩, .notifyOne (), .block]

theorem enqueue_wakeup_lost :
    (executeQueue Unit Unit).Admits init unheardPacket ∧
      LostWakeup ((executeQueue Unit Unit).after init unheardPacket) := by
  refine ⟨by decide, by decide, by decide, fun i => by decide +revert, ?_⟩
  intro o
  simp [unheardPacket, executeQueue, next, init, State.goto, State.notify, Stopping]

end Core.PacketExecuteQueue
