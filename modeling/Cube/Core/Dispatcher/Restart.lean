/-
Packets that wait for the next `Start`.

While the queue is stopped nothing is taken from it.  After a `Start` the worker does not
rest before it has handed out what was waiting: it blocks or returns only on a queue it has
just found empty. `Serving` carries that through everything that can happen after the
`Start`, later calls of `Stop` and `Start` included.  And it is never stuck: as long as one
of these packets has not been handed out, some step of the worker or of the owner brings
that nearer, and `remaining` counts how far it is.
-/
import Cube.Core.Dispatcher.Drain

namespace Core.PacketExecuteQueue

open Library System

section

variable {π ω : Type}

/-! ### Everybody stands in its own code -/

theorem belongs_idle (p : Party π ω) : Belongs p .idle := by
  cases p <;> trivial

variable [DecidableEq π] [DecidableEq ω]

/-- Each party stands at a point of its own code. -/
def Placed (pc : Party π ω → Point π) : Prop := ∀ p, Belongs p (pc p)

theorem Placed.move {pc : Party π ω → Point π} (h : Placed pc) {p : Party π ω} {f : Point π}
    (hf : Belongs p f) : Placed (Function.update pc p f) := by
  intro q
  by_cases hq : q = p
  · subst hq
    rwa [Function.update_self]
  · rw [Function.update_of_ne hq]
    exact h q

theorem placed_notify {s : State π ω} (h : Placed s.pc) : Placed s.notify.pc := by
  rcases notify_cases s with ⟨-, heq⟩ | ⟨-, heq⟩ <;> rw [heq]
  · exact h.move (p := .worker) (f := .woken) trivial
  · exact h

theorem placed_next (s : State π ω) (a : Action π ω) (h : Placed s.pc) (hen : Enabled s a) :
    Placed (next s a).pc := by
  by_cases ha : a.OfWorker
  · obtain ⟨f, hmove⟩ := worker_step hen ha
    rw [hmove.pc]
    exact h.move hmove.belongs
  cases a with
  | setProcessor o nonEmpty => exact h
  | enqueue i item => exact h.move (p := .producer i) (f := .notifyOne) rfl
  | notifyOne i => exact (placed_notify h).move (belongs_idle _)
  | start o => exact h.move (p := .owner o) (f := .spawn) trivial
  | spawn o => exact (h.move (p := .worker) (f := .lock) trivial).move (belongs_idle _)
  | stop o => exact h.move (p := .owner o) (f := .clear) trivial
  | clear o => exact h.move (p := .owner o) (f := .endLock) trivial
  | endLock o => exact h.move (p := .owner o) (f := .notifyAll) trivial
  | notifyAll o => exact (placed_notify h).move (p := .owner o) (f := .joinable) trivial
  | joinable o => exact h.move (p := .owner o) (f := .join) trivial
  | notJoinable o => exact h.move (belongs_idle _)
  | join o => exact (h.move (p := .worker) (f := .idle) (belongs_idle _)).move (belongs_idle _)
  | _ => exact absurd trivial ha

theorem placed_of_run {tr : List (State π ω × Action π ω)} {s : State π ω}
    (hr : (executeQueue π ω).Run tr s) : Placed s.pc :=
  hr.invariant (I := fun s => Placed s.pc) (fun p => belongs_idle p) placed_next

end

variable {π : Type} [DecidableEq π]

/-! ### While it is stopped -/

/-- There is no worker, and none is being made. -/
def Stopped (pc : Party π Unit → Point π) : Prop :=
  pc .worker = .idle ∧ pc (.owner ()) ≠ .spawn

/-- Without a `Start` the worker stays away, and nothing leaves the queue. -/
theorem stopped_next (s : State π Unit) (a : Action π Unit) (h : Stopped s.pc)
    (hen : Enabled s a) (hno : a ≠ .start ()) :
    Stopped (next s a).pc ∧ (next s a).queue.dequeued = s.queue.dequeued ∧
      (next s a).calls = s.calls := by
  obtain ⟨hworker, howner⟩ := h
  have hsame : s.notify = s := by
    rcases notify_cases s with ⟨hwait, -⟩ | ⟨-, heq⟩
    · exact absurd (hworker.symm.trans hwait) (by simp)
    · exact heq
  by_cases ha : a.OfWorker
  · obtain ⟨f, hmove⟩ := worker_step hen ha
    exact absurd hworker hmove.alive
  cases a with
  | enqueue i item =>
      exact ⟨⟨by simpa [next] using hworker, by simpa [next] using howner⟩, rfl, rfl⟩
  | notifyOne i =>
      simp only [next, hsame]
      exact ⟨⟨by simpa using hworker, by simpa using howner⟩, rfl, rfl⟩
  | setProcessor o nonEmpty => exact ⟨⟨hworker, howner⟩, rfl, rfl⟩
  | start o => exact absurd rfl hno
  | spawn o => exact absurd hen.1 howner
  | stop o => exact ⟨⟨by simpa [next] using hworker, by simp [next]⟩, rfl, rfl⟩
  | clear o => exact ⟨⟨by simpa [next] using hworker, by simp [next]⟩, rfl, rfl⟩
  | endLock o => exact ⟨⟨by simpa [next] using hworker, by simp [next]⟩, rfl, rfl⟩
  | notifyAll o =>
      simp only [next, hsame]
      exact ⟨⟨by simpa using hworker, by simp⟩, rfl, rfl⟩
  | joinable o => exact absurd hworker hen.2
  | notJoinable o => exact ⟨⟨by simpa [next] using hworker, by simp [next]⟩, rfl, rfl⟩
  | join o => exact absurd (hworker.symm.trans hen.2) (by simp)
  | _ => exact absurd trivial ha

/-- `Stop` returns with no worker left. -/
theorem stopped_of_returns {s : State π Unit} {a : Action π Unit} (hen : Enabled s a)
    (ha : Returns a) : Stopped (next s a).pc ∧ (next s a).queue = s.queue ∧
      (next s a).calls = s.calls := by
  cases a with
  | notJoinable o =>
      exact ⟨⟨by simpa [next] using hen.2, by simp [next]⟩, rfl, rfl⟩
  | join o => exact ⟨⟨by simp [next], by simp [next]⟩, rfl, rfl⟩
  | _ => exact absurd ha (by simp [Returns])

/-! ### After the next `Start` -/

/-- The points of the worker between two looks at an empty queue. -/
def Working : Point π → Prop
  | .lock | .predRunning | .predPending | .testRunning | .testPending | .unlock => True
  | .hasPending | .tryDequeue | .invoke _ | .calling _ => True
  | _ => False

/-- The packets of `E` are in the queue or handed out, and all are handed out where the worker
rests. -/
structure Serving (E : List (Packet π)) (s : State π Unit) : Prop where
  kept : ∀ e ∈ E, e ∈ s.queue.enqueued
  served : ¬Working (s.pc .worker) → s.pc (.owner ()) ≠ .spawn → ∀ e ∈ E, e ∈ s.calls

/-- An empty queue and a worker that holds no packet: every packet has been handed out. -/
theorem State.Balanced.mem_calls {s : State π Unit} (h : s.Balanced)
    (hempty : s.queue.pending = []) (hheld : held (s.pc .worker) = []) {e : Packet π}
    (he : e ∈ s.queue.enqueued) : e ∈ s.calls := by
  have hdeq : e ∈ s.queue.dequeued := ProducerQueue.mem_dequeued_of_pending_nil hempty he
  rwa [h.handed, hheld, List.append_nil] at hdeq

theorem serving_worker {E : List (Packet π)} {s : State π Unit} {a : Action π Unit}
    (h : Serving E s) (hbal : s.Balanced) (hen : Enabled s a) (ha : a.OfWorker) :
    Serving E (next s a) := by
  obtain ⟨f, hmove⟩ := worker_step hen ha
  refine ⟨fun e he => enqueued_next s a (h.kept e he), ?_⟩
  rw [hmove.pc, Function.update_self, Function.update_of_ne (by simp)]
  intro hrest hspawn e he
  -- the worker rests on an empty queue, or it rested before
  have hempty : s.queue.pending = [] → held (s.pc .worker) = [] → e ∈ (next s a).calls :=
    fun hnil hheld => calls_next s a (hbal.mem_calls hnil hheld (h.kept e he))
  have hbefore : ¬Working (s.pc .worker) → e ∈ (next s a).calls :=
    fun hrest' => calls_next s a (h.served hrest' hspawn e he)
  have hbelongs := hmove.belongs
  cases f with
  | block =>
      obtain ⟨hpc, hnil, -⟩ := hmove.block rfl
      exact hempty hnil (by simp [hpc, held])
  | waiting => exact hbefore (by simp [(hmove.waiting rfl).1, Working])
  | woken => exact hbefore (by simp [hmove.woken rfl, Working])
  | exit =>
      obtain ⟨hpc, hnil⟩ := hmove.exit rfl
      exact hempty hnil (by simp [hpc, held])
  | finished => exact hbefore (by simp [hmove.finished rfl, Working])
  | idle => exact absurd rfl hmove.stays
  | notifyOne => exact hbelongs.elim
  | spawn => exact hbelongs.elim
  | clear => exact hbelongs.elim
  | endLock => exact hbelongs.elim
  | notifyAll => exact hbelongs.elim
  | joinable => exact hbelongs.elim
  | join => exact hbelongs.elim
  | _ => exact absurd trivial hrest

/-- A step of somebody else that leaves the worker resting found it resting. -/
theorem Serving.other {E : List (Packet π)} {s s' : State π Unit} (h : Serving E s)
    (hkept : ∀ e ∈ E, e ∈ s'.queue.enqueued) (hcalls : s'.calls = s.calls)
    (hworker : ¬Working (s'.pc .worker) → ¬Working (s.pc .worker))
    (howner : s.pc (.owner ()) = .spawn → s'.pc (.owner ()) = .spawn) : Serving E s' where
  kept := hkept
  served := by
    rw [hcalls]
    exact fun hrest hspawn => h.served (hworker hrest) (mt howner hspawn)

theorem notify_rests {s : State π Unit} (h : ¬Working (s.notify.pc .worker)) :
    ¬Working (s.pc .worker) := by
  rcases notify_cases s with ⟨hpc, -⟩ | ⟨-, heq⟩
  · simp [hpc, Working]
  · rwa [heq] at h

theorem serving_next {E : List (Packet π)} (s : State π Unit) (a : Action π Unit)
    (h : Serving E s) (hbal : s.Balanced) (hen : Enabled s a) : Serving E (next s a) := by
  by_cases ha : a.OfWorker
  · exact serving_worker h hbal hen ha
  have hkept : ∀ e ∈ E, e ∈ (next s a).queue.enqueued := fun e he => enqueued_next s a (h.kept e he)
  cases a with
  | enqueue i item => exact h.other hkept rfl (by simp [next]) (by simp [next])
  | notifyOne i =>
      exact h.other hkept (by simp [next]) (fun hr => notify_rests (by simpa [next] using hr))
        (by simp [next])
  | setProcessor o nonEmpty => exact h.other hkept rfl id id
  | start o => exact ⟨hkept, fun _ hspawn => absurd (by simp [next]) hspawn⟩
  | spawn o => exact ⟨hkept, fun hrest _ => absurd (by simp [next, Working]) hrest⟩
  | stop o =>
      have hpc : s.pc (.owner ()) = .idle := hen.1
      exact h.other hkept rfl (by simp [next]) (by simp [hpc])
  | clear o =>
      have hpc : s.pc (.owner ()) = .clear := hen
      exact h.other hkept rfl (by simp [next]) (by simp [hpc])
  | endLock o =>
      have hpc : s.pc (.owner ()) = .endLock := hen
      exact h.other hkept rfl (by simp [next]) (by simp [hpc])
  | notifyAll o =>
      have hpc : s.pc (.owner ()) = .notifyAll := hen
      exact h.other hkept (by simp [next]) (fun hr => notify_rests (by simpa [next] using hr))
        (by simp [hpc])
  | joinable o =>
      have hpc : s.pc (.owner ()) = .joinable := hen.1
      exact h.other hkept rfl (by simp [next]) (by simp [hpc])
  | notJoinable o =>
      have hpc : s.pc (.owner ()) = .joinable := hen.1
      exact h.other hkept rfl (by simp [next]) (by simp [hpc])
  | join o =>
      have hpc : s.pc (.owner ()) = .join := hen.1
      exact h.other hkept rfl (fun _ => by simp [hen.2, Working]) (by simp [hpc])
  | _ => exact absurd trivial ha

/-! ### Until everything is handed out -/

/-- How many steps the worker is from its next look at the queue in `ProcessPackets`, or from
the end of a call of the processor. -/
def workerRank : Point π → Nat
  | .idle => 9
  | .lock => 8
  | .predRunning => 7
  | .predPending => 6
  | .testRunning => 5
  | .testPending => 4
  | .unlock => 3
  | .hasPending => 2
  | .tryDequeue => 1
  | .invoke _ => 4
  | .calling _ => 3
  | _ => 0

/-- How many steps the owner is from releasing `_mutex`. -/
def ownerRank : Point π → Nat
  | .clear => 2
  | .endLock => 1
  | _ => 0

/-- How far the queue is from having handed out what it holds. -/
def remaining (s : State π Unit) : Nat :=
  20 * s.queue.pending.length + workerRank (s.pc .worker) + ownerRank (s.pc (.owner ()))

/-- What holds in every state after a `Start` that found the packets of `E`. -/
structure Restarted (E : List (Packet π)) (s : State π Unit) : Prop where
  placed : Placed s.pc
  locked : Locked Inside s.pc s.mutex
  alternates : Alternates s.pc s.isRunning
  balanced : s.Balanced
  installed : Installed s.pc s.hasProcessor
  serving : Serving E s

theorem restarted_next {E : List (Packet π)} (s : State π Unit) (a : Action π Unit)
    (h : Restarted E s) (hen : Enabled s a) (hg : ProcessorSet s a) : Restarted E (next s a) where
  placed := placed_next s a h.placed hen
  locked := locked_next s a h.locked hen
  alternates := alternates_next s a h.alternates hen
  balanced := balanced_next s a h.balanced hen fun hw => h.installed (Or.inl hw)
  installed := installed_next s a h.installed hen hg
  serving := serving_next s a h.serving h.balanced hen

/-- A worker at the head of its loop takes the mutex, or the owner brings its release nearer. -/
theorem lock_progress {E : List (Packet π)} {s : State π Unit} (h : Restarted E s)
    (hpc : s.pc .worker = .lock) :
    ∃ a, Enabled s a ∧ ProcessorSet s a ∧ remaining (next s a) < remaining s := by
  cases hmutex : s.mutex with
  | none =>
      refine ⟨.lock, ⟨hpc, hmutex⟩, trivial, ?_⟩
      simp [remaining, next, hpc, workerRank]
  | some p =>
      have hin : Inside (s.pc p) := (h.locked p).mpr hmutex
      have hplace := h.placed p
      cases p with
      | worker => simp [hpc, Inside] at hin
      | producer i =>
          cases hpi : s.pc (.producer i) <;> simp_all [Inside, Belongs]
      | owner o =>
          cases hpo : s.pc (.owner ()) with
          | clear =>
              refine ⟨.clear (), hpo, trivial, ?_⟩
              simp [remaining, next, hpo, ownerRank]
          | endLock =>
              refine ⟨.endLock (), hpo, trivial, ?_⟩
              simp [remaining, next, hpo, ownerRank]
          | _ =>
              rw [show Party.owner o = (.owner () : Party π Unit) from rfl, hpo] at hin hplace
              simp_all [Inside, Belongs]

/-- As long as a packet of `E` has not been handed out, some step brings that nearer. -/
theorem restarted_progress {E : List (Packet π)} {s : State π Unit} (h : Restarted E s)
    (hgoal : ¬∀ e ∈ E, e ∈ s.calls) :
    ∃ a, Enabled s a ∧ ProcessorSet s a ∧ remaining (next s a) < remaining s := by
  by_cases hspawn : s.pc (.owner ()) = .spawn
  · have hpc := (h.alternates.spawning hspawn).1
    refine ⟨.spawn (), ⟨hspawn, hpc⟩, trivial, ?_⟩
    simp [remaining, next, hpc, hspawn, workerRank, ownerRank]
  have hworking : Working (s.pc .worker) := by
    by_contra hrest
    exact hgoal (h.serving.served hrest hspawn)
  -- an empty queue would mean that all packets have been handed out
  have hpending : held (s.pc .worker) = [] → s.queue.pending ≠ [] := fun hheld hnil =>
    hgoal fun e he => h.balanced.mem_calls hnil hheld (h.serving.kept e he)
  cases hpc : s.pc .worker with
  | lock => exact lock_progress h hpc
  | predRunning =>
      refine ⟨.predRunning, hpc, trivial, ?_⟩
      simp only [next]
      split <;> simp [remaining, hpc, workerRank]
  | predPending =>
      have hne := hpending (by simp [hpc, held])
      exact ⟨.predPending, hpc, trivial, by simp [remaining, next, hne, hpc, workerRank]⟩
  | testRunning =>
      refine ⟨.testRunning, hpc, trivial, ?_⟩
      simp only [next]
      split <;> simp [remaining, hpc, workerRank]
  | testPending =>
      have hne := hpending (by simp [hpc, held])
      exact ⟨.testPending, hpc, trivial, by simp [remaining, next, hne, hpc, workerRank]⟩
  | unlock => exact ⟨.unlock, hpc, trivial, by simp [remaining, next, hpc, workerRank]⟩
  | hasPending =>
      have hne := hpending (by simp [hpc, held])
      exact ⟨.hasPending, hpc, trivial, by simp [remaining, next, hne, hpc, workerRank]⟩
  | tryDequeue =>
      have hne := hpending (by simp [hpc, held])
      obtain ⟨e, he⟩ := List.exists_mem_of_ne_nil _ hne
      obtain ⟨e', hfront⟩ := ProducerQueue.exists_front he
      have hproducer : e'.producer = e.producer := by
        simpa using List.find?_some hfront
      rw [← hproducer] at hfront
      have hlen := ProducerQueue.dequeueFrom_pending_length hfront
      refine ⟨.tryDequeue e', ⟨hpc, hfront⟩, trivial, ?_⟩
      simp [remaining, next, hpc, workerRank]
      omega
  | invoke e =>
      refine ⟨.invoke e, hpc, trivial, ?_⟩
      simp only [next]
      split <;> simp [remaining, hpc, workerRank]
  | calling e =>
      exact ⟨.finish e .returned, hpc, trivial, by simp [remaining, next, hpc, workerRank]⟩
  | _ => simp [hpc, Working] at hworking

/-- From every state after the `Start` the packets it found can be handed out. -/
theorem restarted_reaches {E : List (Packet π)} {s : State π Unit} (h : Restarted E s) :
    ∃ acts, (executeQueue π Unit).Admits s acts ∧
      ∀ e ∈ E, e ∈ ((executeQueue π Unit).after s acts).calls := by
  obtain ⟨acts, hadm, -, hgoal⟩ := reach_of_progress (M := executeQueue π Unit)
    (I := Restarted E) (G := fun s => ∀ e ∈ E, e ∈ s.calls) remaining
    (fun s hs hgoal => by
      obtain ⟨a, hen, hg, hlt⟩ := restarted_progress hs hgoal
      exact ⟨a, hen, restarted_next s a hs hen hg, hlt⟩) s h
  exact ⟨acts, hadm, hgoal⟩

/-- The states after a `Start`, in a run that sets a processor before every `Start`. -/
theorem restarted_of_run {tr : List (State π Unit × Action π Unit)} {s : State π Unit}
    (hr : (executeQueue π Unit).Run tr s) (hg : Guarded ProcessorSet tr)
    {pre mid : List (State π Unit × Action π Unit)} {s₁ : State π Unit}
    (htr : tr = pre ++ (s₁, .start ()) :: mid) : Restarted s₁.queue.enqueued s := by
  have hpre : Guarded ProcessorSet pre := fun x hx => hg x (by simp [htr, hx])
  have hmid : Guarded ProcessorSet mid := fun x hx => hg x (by simp [htr, hx])
  have hset : ProcessorSet s₁ (.start ()) := hg (s₁, .start ()) (by simp [htr])
  obtain ⟨hrun₁, hen₁⟩ := hr.split htr
  obtain ⟨hbal, hinst⟩ := balanced_of_run hrun₁ hpre
  refine hr.since (G := ProcessorSet) (Q := Restarted s₁.queue.enqueued) (fun hen => ?_)
    (fun s a _ hQ hen hset => restarted_next s a hQ hen hset) htr hmid
  exact {
    placed := placed_next _ _ (placed_of_run hrun₁) hen
    locked := locked_next _ _ (locked_of_run hrun₁) hen
    alternates := alternates_next _ _ (alternates_of_run hrun₁) hen
    balanced := balanced_next _ _ hbal hen fun hw => hinst (Or.inl hw)
    installed := installed_next _ _ hinst hen hset
    serving := ⟨fun e he => he, fun _ hspawn => absurd (by simp [executeQueue, next]) hspawn⟩ }

end Core.PacketExecuteQueue
