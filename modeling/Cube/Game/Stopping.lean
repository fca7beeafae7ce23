/-
`HandlerManager::Stop` returns.

The worker that `Stop` waits for may be in `ProcessPacket`, and there it may wait for the mutex of
the session manager.  Whoever holds that mutex waits for nothing, so the two mutexes are never
waited for in a circle.

The steps of `ProcessPacket` come on top of the queue's own, at most five for each packet; they are
counted by `processing`.  So the worker makes a bounded number of steps whatever the other threads
do, and `Stop` can be brought to its end from every state of a run.  For that nobody has to help but
a thread that is in `Add` or `Remove` with the mutex already taken.  All this is for handlers that
return or throw.
-/
import Cube.Core.Dispatcher.StopReturns
import Cube.Game.Routing

namespace Game.HandlerManager

open Library System Core Protocol
open Core.PacketExecuteQueue (AtRest Packet held inCall toRest distance)

variable {π τ H : Type}

/-! ### Whose step it is -/

/-- The steps of `ProcessPacket` up to the call of the handler. -/
def Action.OfProcessPacket : Action π τ H → Prop
  | .findLock _ | .find _ | .findUnlock _ _ | .route _ _ | .call _ _ => True
  | .executeQueue _ | .begin _ _ | .lock _ _ | .apply _ _ | .unlock _ => False

instance : DecidablePred (Action.OfProcessPacket (π := π) (τ := τ) (H := H))
  | .findLock _ | .find _ | .findUnlock _ _ | .route _ _ | .call _ _ => isTrue trivial
  | .executeQueue _ | .begin _ _ | .lock _ _ | .apply _ _ | .unlock _ => isFalse id

/-- The steps of the worker. -/
def Action.OfWorker : Action π τ H → Prop
  | .executeQueue a => a.OfWorker
  | a => a.OfProcessPacket

instance : DecidablePred (Action.OfWorker (π := π) (τ := τ) (H := H))
  | .executeQueue a => inferInstanceAs (Decidable a.OfWorker)
  | .findLock _ | .find _ | .findUnlock _ _ | .route _ _ | .call _ _ => isTrue trivial
  | .begin _ _ | .lock _ _ | .apply _ _ | .unlock _ => isFalse id

/-- The push of a packet. -/
def Action.Pushes : Action π τ H → Prop
  | .executeQueue a => a.Pushes
  | _ => False

instance : DecidablePred (Action.Pushes (π := π) (τ := τ) (H := H))
  | .executeQueue a => inferInstanceAs (Decidable a.Pushes)
  | .findLock _ | .find _ | .findUnlock _ _ | .route _ _ | .call _ _ => isFalse id
  | .begin _ _ | .lock _ _ | .apply _ _ | .unlock _ => isFalse id

/-- The steps of a thread that holds the mutex of the session manager. -/
def Action.OfHolder (t : τ) : Action π τ H → Prop
  | .apply t' _ | .unlock t' => t' = t
  | _ => False

/-- The steps that neither push a packet nor begin a call of `Add` or `Remove` or take the mutex
there. -/
def Action.Finishes : Action π τ H → Prop
  | .executeQueue a => ¬a.OfProducer
  | .begin _ _ | .lock _ _ => False
  | _ => True

/-! ### The state between two steps -/

/-- The points of `Add` and `Remove`. -/
def OfThread : Point H → Prop
  | .outside | .lock _ | .apply _ | .unlock => True
  | _ => False

/-- The packet that `ProcessPacket` was called with. -/
def Point.item : Point H → Option PacketItem
  | .findLock item | .find item | .findUnlock item _ | .route item _ | .call item _ => some item
  | .handling item | .returned item => some item
  | .outside | .lock _ | .apply _ | .unlock => none

/-- The worker is in `ProcessPacket` while the queue calls the processor. -/
def Processes : PacketExecuteQueue.Point π → Point H → Prop
  | .calling e, f => f.item = some e.value
  | _, f => f = .outside

variable [DecidableEq π]

structure Sound (s : State π τ H) : Prop where
  queue : PacketExecuteQueue.Sound s.executeQueue
  balanced : s.executeQueue.Balanced
  processor : s.executeQueue.hasProcessor = true
  locked : Locked Inside s.pc s.mutex
  threads : ∀ t, OfThread (s.pc (.thread t))
  processes : Processes (s.executeQueue.pc .worker) (s.pc .worker)

/-- Every packet is in the queue, in the worker's hand, or was handed to `ProcessPacket`. -/
theorem Sound.counted {s : State π τ H} (h : Sound s) : s.executeQueue.queue.enqueued.length
    = s.executeQueue.calls.length + (held (s.executeQueue.pc .worker)).length +
      s.executeQueue.queue.pending.length := by
  have hlength := s.executeQueue.queue.conserved.length_eq
  rw [h.balanced.handed, List.length_append, List.length_append] at hlength
  exact hlength

/-! ### Nobody waits for ever -/

/-- Who holds the mutex of the session manager can go on. -/
theorem Sound.holder {s : State π τ H} (h : Sound s) {t : τ} (hmutex : s.mutex = some (.thread t)) :
    ∃ a, Enabled s a ∧ a.OfHolder t := by
  have hin : Inside (s.pc (.thread t)) := (h.locked (.thread t)).mpr hmutex
  have hplace := h.threads t
  cases hpc : s.pc (.thread t) with
  | apply c => exact ⟨.apply t c, hpc, rfl⟩
  | unlock => exact ⟨.unlock t, hpc, rfl⟩
  | outside | lock c =>
      rw [hpc] at hin
      exact hin.elim
  | _ =>
      rw [hpc] at hplace
      exact hplace.elim

/-- While the processor is called, it returns, or `ProcessPacket` goes on, or it waits for a thread
that can go on. -/
theorem Sound.calling {s : State π τ H} (h : Sound s) {e : Packet π}
    (hpc : s.executeQueue.pc .worker = .calling e) :
    Enabled s (.executeQueue (.finish e .returned)) ∨
      (∃ a, Enabled s a ∧ a.OfProcessPacket) ∨
      ∃ t a, s.mutex = some (.thread t) ∧ Enabled s a ∧ a.OfHolder t := by
  have hprocesses := h.processes
  rw [hpc] at hprocesses
  cases hplace : s.pc .worker with
  | findLock item =>
      cases hmutex : s.mutex with
      | none => exact .inr (.inl ⟨.findLock item, ⟨hplace, hmutex⟩, trivial⟩)
      | some p =>
          cases p with
          | worker =>
              have hin : Inside (s.pc .worker) := (h.locked .worker).mpr hmutex
              rw [hplace] at hin
              exact hin.elim
          | thread t =>
              obtain ⟨a, hen, ha⟩ := h.holder hmutex
              exact .inr (.inr ⟨t, a, rfl, hen, ha⟩)
  | find item => exact .inr (.inl ⟨.find item, hplace, trivial⟩)
  | findUnlock item session => exact .inr (.inl ⟨.findUnlock item session, hplace, trivial⟩)
  | route item session => exact .inr (.inl ⟨.route item session, hplace, trivial⟩)
  | call item inv => exact .inr (.inl ⟨.call item inv, hplace, trivial⟩)
  | handling item =>
      rw [hplace] at hprocesses
      obtain rfl : item = e.value := Option.some.inj hprocesses
      exact .inl ⟨hpc, .inl hplace⟩
  | returned item =>
      rw [hplace] at hprocesses
      obtain rfl : item = e.value := Option.some.inj hprocesses
      exact .inl ⟨hpc, .inr ⟨hplace, rfl⟩⟩
  | outside | lock c | apply c | unlock =>
      rw [hplace] at hprocesses
      cases hprocesses

/-- The steps a thread still makes with the mutex of the session manager. -/
def threadRank : Point H → Nat
  | .apply _ => 2
  | .unlock => 1
  | _ => 0

/-- The steps until that mutex is free, if a thread holds it. -/
def State.releasing (s : State π τ H) : Nat :=
  match s.mutex with
  | some (.thread t) => threadRank (s.pc (.thread t))
  | _ => 0

theorem releasing_congr {s s' : State π τ H} (hmutex : s'.mutex = s.mutex)
    (hpc : ∀ t, s'.pc (.thread t) = s.pc (.thread t)) : s'.releasing = s.releasing := by
  unfold State.releasing
  rw [hmutex]
  split
  · exact congrArg threadRank (hpc _)
  · rfl

/-! ### Every run -/

/-- `ProcessPacket` in every state of a run, read off the packets. -/
theorem Tracked.processes {table : HandlerTable H} {l : Log H} {s : State π τ H}
    (h : Tracked table l s) : Processes (s.executeQueue.pc .worker) (s.pc .worker) := by
  have hcompleted := h.balanced.completed
  cases hqueue : s.executeQueue.pc .worker with
  | calling e =>
      have hcalls : s.executeQueue.calls = s.executeQueue.returns ++ [e] := by
        simpa [hqueue, inCall] using hcompleted
      have hlast : ∀ e', s.executeQueue.calls = s.executeQueue.returns ++ [e'] → e' = e := by
        intro e' hcalls'
        exact List.singleton_inj.mp (List.append_cancel_left (hcalls'.symm.trans hcalls))
      show (s.pc .worker).item = some e.value
      cases hpc : s.pc .worker with
      | outside =>
          have hsame := (h.packets_at hpc).1
          simp [hsame] at hcalls
      | lock c | apply c | unlock => exact absurd (h.packets_at hpc) id
      | findLock item | find item | handling item | returned item =>
          obtain ⟨e', hcalls', rfl, -⟩ := h.packets_at hpc
          rw [hlast e' hcalls']
          rfl
      | findUnlock item session | route item session =>
          obtain ⟨e', done, hcalls', rfl, -⟩ := h.packets_at hpc
          rw [hlast e' hcalls']
          rfl
      | call item inv =>
          obtain ⟨e', done, session, hcalls', rfl, -⟩ := h.packets_at hpc
          rw [hlast e' hcalls']
          rfl
  | _ => exact (h.idle (by simpa [hqueue, inCall] using hcompleted)).1

variable [DecidableEq τ]

theorem threads_next (s : State π τ H) (a : Action π τ H) (h : ∀ t, OfThread (s.pc (.thread t))) :
    ∀ t, OfThread ((next s a).pc (.thread t)) := by
  intro t
  have hworker : Party.thread t ≠ .worker := by simp
  cases a with
  | executeQueue a =>
      have hsame : (s.process a).pc (.thread t) = s.pc (.thread t) := by
        cases a <;> simp [State.process, State.goto]
      show OfThread ((s.process a).pc (.thread t))
      rw [hsame]
      exact h t
  | begin t' c | lock t' c | apply t' c | unlock t' =>
      by_cases ht : t = t'
      · simp [next, State.goto, ht, OfThread]
      · simpa [next, State.goto, ht] using h t
  | route item session =>
      simp only [next]
      split <;> simpa [State.goto] using h t
  | _ => simpa [next, State.goto] using h t

/-- Only the queue's own threads change it. -/
theorem other_queue (s : State π τ H) {a : Action π τ H} (ha : ∀ b, a ≠ .executeQueue b) :
    (next s a).executeQueue = s.executeQueue := by
  cases a with
  | executeQueue b => exact absurd rfl (ha b)
  | route item session =>
      simp only [next]
      split <;> rfl
  | _ => rfl

/-- What holds of the queue and survives its own steps survives every step. -/
theorem queue_next {P : PacketExecuteQueue.State π Unit → Prop} {s : State π τ H}
    {a : Action π τ H} (hen : Enabled s a) (h : P s.executeQueue)
    (hstep : ∀ b, a = .executeQueue b → PacketExecuteQueue.Enabled s.executeQueue b →
      P (PacketExecuteQueue.next s.executeQueue b)) : P (next s a).executeQueue := by
  by_cases ha : ∃ b, a = .executeQueue b
  · obtain ⟨b, rfl⟩ := ha
    exact hstep b rfl hen.1
  · rw [other_queue s fun b heq => ha ⟨b, heq⟩]
    exact h

/-- The queue's part of a run is a run of the queue. -/
theorem reachable_queue {table : HandlerTable H} {tr : List (State π τ H × Action π τ H)}
    {s : State π τ H} (hr : (handlerManager π τ table).Run tr s) :
    (PacketExecuteQueue.executeQueue π Unit).Reachable s.executeQueue := by
  apply hr.invariant (I := fun s : State π τ H =>
    (PacketExecuteQueue.executeQueue π Unit).Reachable s.executeQueue)
  · have hset : (PacketExecuteQueue.executeQueue π Unit).Enabled PacketExecuteQueue.init
        (.setProcessor () true) := ⟨rfl, rfl⟩
    exact ⟨_, Run.nil.step hset⟩
  · intro s a h hen
    apply queue_next hen h
    intro b _ hstep
    obtain ⟨tr, hrun⟩ := h
    exact ⟨_, hrun.step hstep⟩

theorem sound_of_run {table : HandlerTable H} {tr : List (State π τ H × Action π τ H)}
    {s : State π τ H} (hr : (handlerManager π τ table).Run tr s) : Sound s := by
  have htracked := tracked_of_run hr
  obtain ⟨tr', hqueue⟩ := reachable_queue hr
  have hthreads : ∀ t, OfThread (s.pc (.thread t)) := by
    apply hr.invariant (I := fun s : State π τ H => ∀ t, OfThread (s.pc (.thread t)))
    · intro t
      trivial
    · exact fun s a h _ => threads_next s a h
  exact ⟨PacketExecuteQueue.sound_of_run hqueue, htracked.balanced, htracked.processor,
    locked_of_run hr, hthreads, htracked.processes⟩

/-! ### The steps of `ProcessPacket` that are still to come -/

/-- From a point of `ProcessPacket` to the handler. -/
def processRank : Point H → Nat
  | .findLock _ => 5
  | .find _ => 4
  | .findUnlock _ _ => 3
  | .route _ _ => 2
  | .call _ _ => 1
  | _ => 0

/-- For the packets that `ProcessPacket` was not called with yet, and for the one it is at. -/
def State.processing (s : State π τ H) : Nat :=
  5 * (s.executeQueue.queue.enqueued.length - s.executeQueue.calls.length) +
    processRank (s.pc .worker)

theorem enqueued_length_next (q : PacketExecuteQueue.State π Unit)
    (a : PacketExecuteQueue.Action π Unit) :
    (PacketExecuteQueue.next q a).queue.enqueued.length
      = q.queue.enqueued.length + (if a.Pushes then 1 else 0) := by
  cases a with
  | enqueue i item => simp [PacketExecuteQueue.next, PacketExecuteQueue.Action.Pushes]
  | predRunning | predPending | testRunning | testPending | hasPending | invoke e =>
      simp only [PacketExecuteQueue.next]
      split <;> simp [PacketExecuteQueue.Action.Pushes]
  | _ => simp [PacketExecuteQueue.next, PacketExecuteQueue.Action.Pushes]

variable {s : State π τ H}

theorem processing_passive {a : PacketExecuteQueue.Action π Unit} (ha : Passive a) :
    (next s (.executeQueue a)).processing ≤ s.processing + (if a.Pushes then 5 else 0) := by
  have hcalls := (queue_frame s.executeQueue ha).1
  have hlength := enqueued_length_next s.executeQueue a
  have hpc : (next s (.executeQueue a)).pc = s.pc := by
    show (s.process a).pc = s.pc
    rw [process_passive s ha]
  unfold State.processing
  rw [hpc]
  show 5 * ((PacketExecuteQueue.next s.executeQueue a).queue.enqueued.length
    - (PacketExecuteQueue.next s.executeQueue a).calls.length) + _ ≤ _
  rw [hlength, hcalls]
  split_ifs <;> omega

/-- Only a push adds to the steps of `ProcessPacket`. -/
theorem Sound.processing_queue (h : Sound s) {a : PacketExecuteQueue.Action π Unit}
    (hen : Enabled s (.executeQueue a)) :
    (next s (.executeQueue a)).processing ≤ s.processing + (if a.Pushes then 5 else 0) := by
  cases a with
  | setProcessor o nonEmpty => exact hen.2.elim
  | invoke e =>
      have hpc : s.executeQueue.pc .worker = .invoke e := hen.1
      have hcounted := h.counted
      rw [hpc] at hcounted
      have hcalls : (next s (.executeQueue (.invoke e))).executeQueue.calls.length
          = s.executeQueue.calls.length + 1 := by
        simp [next, PacketExecuteQueue.next, h.processor]
      have hlength : (next s (.executeQueue (.invoke e))).executeQueue.queue.enqueued.length
          = s.executeQueue.queue.enqueued.length := enqueued_length_next s.executeQueue (.invoke e)
      have hrank : processRank ((next s (.executeQueue (.invoke e))).pc .worker) = 5 := by
        simp [next, State.process, State.goto, processRank]
      unfold State.processing
      rw [hrank, hcalls, hlength]
      simp only [held, List.length_singleton] at hcounted
      omega
  | finish e outcome =>
      have hrank : processRank ((next s (.executeQueue (.finish e outcome))).pc .worker) = 0 := by
        simp [next, State.process, State.goto, processRank]
      unfold State.processing
      rw [hrank]
      exact Nat.le_add_right_of_le (Nat.le_add_right _ _)
  | _ => exact processing_passive trivial

theorem processRank_lt {a : Action π τ H} (hen : Enabled s a) (ha : a.OfProcessPacket) :
    processRank ((next s a).pc .worker) < processRank (s.pc .worker) := by
  cases a with
  | findLock item => simp [next, State.goto, hen.1, processRank]
  | find item =>
      have hpc : s.pc .worker = .find item := hen
      simp [next, State.goto, hpc, processRank]
  | findUnlock item session =>
      have hpc : s.pc .worker = .findUnlock item session := hen
      simp [next, State.goto, hpc, processRank]
  | route item session =>
      have hpc : s.pc .worker = .route item session := hen
      simp only [next]
      split <;> simp [State.goto, hpc, processRank]
  | call item inv =>
      have hpc : s.pc .worker = .call item inv := hen
      simp [next, State.goto, hpc, processRank]
  | _ => exact absurd ha id

/-- `ProcessPacket` goes on, and the queue is as it was. -/
theorem processing_lt {a : Action π τ H} (hen : Enabled s a) (ha : a.OfProcessPacket) :
    (next s a).executeQueue = s.executeQueue ∧ (next s a).processing < s.processing := by
  have hqueue : (next s a).executeQueue = s.executeQueue := by
    apply other_queue s
    rintro b rfl
    exact ha
  have hlt := processRank_lt hen ha
  refine ⟨hqueue, ?_⟩
  unfold State.processing
  rw [hqueue]
  omega

/-- `Add` and `Remove` leave the worker where it is. -/
theorem thread_worker {a : Action π τ H} (ha : ¬a.OfWorker) (hqueue : ∀ b, a ≠ .executeQueue b) :
    (next s a).pc .worker = s.pc .worker := by
  cases a with
  | executeQueue b => exact absurd rfl (hqueue b)
  | begin t c | lock t c | apply t c | unlock t => simp [next, State.goto]
  | _ => exact absurd trivial ha

/-! ### While `Stop` waits in `join` -/

/-- The steps the worker still has, if no packet is pushed. -/
def State.leaving (s : State π τ H) : Nat := distance s.executeQueue + s.processing

/-- Every step of the worker brings it nearer to the end of `Run`, and only a push sets it back. -/
theorem Sound.leaving_next (h : Sound s) (hjoin : s.executeQueue.pc (.owner ()) = .join)
    {a : Action π τ H} (hen : Enabled s a) (hno : a ≠ .executeQueue (.join ())) :
    (next s a).executeQueue.pc (.owner ()) = .join ∧
      (next s a).leaving + (if a.OfWorker then 1 else 0)
        ≤ s.leaving + (if a.Pushes then 25 else 0) := by
  by_cases hqueue : ∃ b, a = .executeQueue b
  · obtain ⟨b, rfl⟩ := hqueue
    have hjoining : PacketExecuteQueue.Joining s.executeQueue := ⟨h.queue, hjoin⟩
    have hb : b ≠ .join () := fun heq => hno (congrArg _ heq)
    have hprocessing := h.processing_queue hen
    refine ⟨(hjoining.stays hen.1 hb).join, ?_⟩
    show distance (PacketExecuteQueue.next s.executeQueue b)
      + (next s (.executeQueue b)).processing + (if b.OfWorker then 1 else 0)
        ≤ distance s.executeQueue + s.processing + (if b.Pushes then 25 else 0)
    by_cases hworker : b.OfWorker
    · have hlt := hjoining.worker hen.1 hworker
      split_ifs at hprocessing ⊢ <;> omega
    · have hle := hjoining.other hen.1 hworker hb
      split_ifs at hprocessing hle ⊢ <;> omega
  · have hother : ∀ b, a ≠ .executeQueue b := fun b heq => hqueue ⟨b, heq⟩
    unfold State.leaving
    by_cases hworker : a.OfWorker
    · have hprocess : a.OfProcessPacket := by
        cases a with
        | executeQueue b => exact absurd rfl (hother b)
        | _ => exact hworker
      obtain ⟨hsame, hlt⟩ := processing_lt hen hprocess
      rw [hsame, if_pos hworker]
      exact ⟨hjoin, by omega⟩
    · have hsame := other_queue s hother
      have hprocessing : (next s a).processing = s.processing := by
        unfold State.processing
        rw [hsame, thread_worker hworker hother]
      rw [hsame, hprocessing, if_neg hworker]
      exact ⟨hjoin, Nat.le_add_right _ _⟩

/-- However the others step in between, the worker takes a bounded number of steps. -/
theorem workerSteps_le {table : HandlerTable H} {tr : List (State π τ H × Action π τ H)}
    (hr : (handlerManager π τ table).Run tr s) (hjoin : s.executeQueue.pc (.owner ()) = .join)
    {acts : List (Action π τ H)} (hadm : (handlerManager π τ table).Admits s acts)
    (hno : .executeQueue (.join ()) ∉ acts) :
    acts.countP (Action.OfWorker ·) ≤
      25 * (s.executeQueue.queue.pending.length + acts.countP (Action.Pushes ·)) + 18 := by
  have hbound := count_le_of_potential (M := handlerManager π τ table)
    (I := fun s => (handlerManager π τ table).Reachable s ∧
      s.executeQueue.pc (.owner ()) = .join)
    (· ≠ .executeQueue (.join ())) Action.OfWorker Action.Pushes State.leaving 25
    (fun s a hs hen hok => by
      obtain ⟨⟨tr, hrun⟩, hpc⟩ := hs
      obtain ⟨hstill, hle⟩ := (sound_of_run hrun).leaving_next hpc hen hok
      exact ⟨⟨⟨_, hrun.step hen⟩, hstill⟩, hle⟩)
    acts s ⟨⟨tr, hr⟩, hjoin⟩ hadm (fun a ha heq => hno (heq ▸ ha))
  have h := sound_of_run hr
  have hcounted := h.counted
  have hrank := (PacketExecuteQueue.leaveRank_le (s.executeQueue.queue.pending = [])
    (s.executeQueue.pc .worker)).2
  -- the worker does not hold a packet and process another
  have hone : 5 * (held (s.executeQueue.pc .worker)).length + processRank (s.pc .worker) ≤ 5 := by
    have hprocesses := h.processes
    cases hpc : s.executeQueue.pc .worker with
    | calling e => cases s.pc .worker <;> simp [held, processRank]
    | _ =>
        rw [hpc] at hprocesses
        rw [show s.pc .worker = .outside from hprocesses]
        simp [held, processRank]
  unfold State.leaving State.processing distance at hbound
  omega

/-! ### To the end of `Stop` -/

/-- The steps until the queue is at rest. -/
def State.toStop (s : State π τ H) : Nat := toRest s.executeQueue + s.processing + s.releasing

theorem releasing_queue (a : PacketExecuteQueue.Action π Unit) :
    (next s (.executeQueue a)).releasing = s.releasing := by
  apply releasing_congr
  · show (s.process a).mutex = s.mutex
    cases a <;> rfl
  · intro t
    show (s.process a).pc (.thread t) = s.pc (.thread t)
    cases a <;> simp [State.process, State.goto]

/-- `ProcessPacket` takes the mutex only when it is free. -/
theorem releasing_process {a : Action π τ H} (ha : a.OfProcessPacket) :
    (next s a).releasing ≤ s.releasing := by
  cases a with
  | findLock item | findUnlock item session => exact Nat.zero_le _
  | find item | call item inv =>
      apply Nat.le_of_eq
      apply releasing_congr rfl
      simp [next, State.goto]
  | route item session =>
      apply Nat.le_of_eq
      simp only [next]
      split <;> exact releasing_congr rfl (by simp [State.goto])
  | _ => exact absurd ha id

/-- The thread that holds the mutex goes on. -/
theorem releasing_lt {t : τ} (hmutex : s.mutex = some (.thread t)) {a : Action π τ H}
    (hen : Enabled s a) (ha : a.OfHolder t) : (next s a).executeQueue = s.executeQueue ∧
      (next s a).processing = s.processing ∧ (next s a).releasing < s.releasing := by
  cases a with
  | apply t' c =>
      obtain rfl : t' = t := ha
      have hpc : s.pc (.thread t') = .apply c := hen
      refine ⟨rfl, by simp [State.processing, next, State.goto], ?_⟩
      simp [State.releasing, next, State.goto, hmutex, hpc, threadRank]
  | unlock t' =>
      obtain rfl : t' = t := ha
      have hpc : s.pc (.thread t') = .unlock := hen
      refine ⟨rfl, by simp [State.processing, next, State.goto], ?_⟩
      simp [State.releasing, next, hmutex, hpc, threadRank]
  | _ => exact absurd ha id

/-- A step of the queue towards its rest. -/
theorem Sound.toStop_queue (h : Sound s) {a : PacketExecuteQueue.Action π Unit}
    (hen : Enabled s (.executeQueue a)) (hno : ¬a.OfProducer)
    (hlt : toRest (PacketExecuteQueue.next s.executeQueue a) < toRest s.executeQueue) :
    ∃ b, Enabled s b ∧ b.Finishes ∧ (next s b).toStop < s.toStop := by
  have hpushes : ¬a.Pushes := by
    intro hpush
    cases a <;> first | exact hno trivial | exact hpush
  have hprocessing := h.processing_queue hen
  rw [if_neg hpushes] at hprocessing
  refine ⟨.executeQueue a, hen, hno, ?_⟩
  unfold State.toStop
  rw [releasing_queue a]
  show toRest (PacketExecuteQueue.next s.executeQueue a) + _ + _ < _
  omega

/-- As long as the owner or the worker is in the queue, one of them makes a step towards the end, or
a thread that holds the mutex of the session manager does. -/
theorem Sound.toStop_lt (h : Sound s) (hgoal : ¬AtRest s.executeQueue) :
    ∃ a, Enabled s a ∧ a.Finishes ∧ (next s a).toStop < s.toStop := by
  obtain ⟨a, hen, hno, hlt⟩ := h.queue.toRest_lt hgoal
  cases a with
  | setProcessor o nonEmpty => exact absurd hlt (Nat.lt_irrefl _)
  | finish e outcome =>
      rcases h.calling hen with hfinish | hprocess | hholder
      · exact h.toStop_queue hfinish id hlt
      · obtain ⟨b, hb, hprocess⟩ := hprocess
        obtain ⟨hsame, hless⟩ := processing_lt hb hprocess
        have hle := releasing_process (s := s) hprocess
        refine ⟨b, hb, by cases b <;> trivial, ?_⟩
        unfold State.toStop
        rw [hsame]
        omega
      · obtain ⟨t, b, hmutex, hb, hholder⟩ := hholder
        obtain ⟨hsame, hprocessing, hless⟩ := releasing_lt hmutex hb hholder
        refine ⟨b, hb, by cases b <;> trivial, ?_⟩
        unfold State.toStop
        rw [hsame, hprocessing]
        omega
  | _ => exact h.toStop_queue ⟨hen, trivial⟩ hno hlt

/-- Without a new packet and without a new call of `Add` or `Remove`, every state of a run can be
followed by one in which the owner and the worker are at rest. -/
theorem reaches_rest {table : HandlerTable H} {tr : List (State π τ H × Action π τ H)}
    (hr : (handlerManager π τ table).Run tr s) :
    ∃ acts, (handlerManager π τ table).Admits s acts ∧ (∀ a ∈ acts, a.Finishes) ∧
      AtRest ((handlerManager π τ table).after s acts).executeQueue := by
  obtain ⟨acts, hadm, -, hgoal⟩ := reach_of_progress
    (M := (handlerManager π τ table).restrict Action.Finishes)
    (I := (handlerManager π τ table).Reachable) (G := fun s => AtRest s.executeQueue)
    State.toStop
    (fun s hs hgoal => by
      obtain ⟨tr, hrun⟩ := hs
      obtain ⟨a, hen, ha, hlt⟩ := (sound_of_run hrun).toStop_lt hgoal
      exact ⟨a, ⟨hen, ha⟩, ⟨_, hrun.step hen⟩, hlt⟩) s ⟨tr, hr⟩
  obtain ⟨hadm', hall⟩ := admits_of_restrict hadm
  rw [after_restrict] at hgoal
  exact ⟨acts, hadm', hall, hgoal⟩

/-- **`HandlerManager::Stop` returns**, whatever the threads do that add and remove sessions.  While
it waits in `join`, it can go on, or the worker can, or the worker waits for a thread that holds the
mutex of the session manager and can go on itself; and the worker makes a bounded number of steps in
every interleaving.  From every state of a run the owner, the worker and that thread can bring a
`Stop` to its end, and then the worker is in no call. -/
theorem stop_completes (table : HandlerTable H) :
    (∀ tr s, (handlerManager π τ table).Run tr s → s.executeQueue.pc (.owner ()) = .join →
      (Enabled s (.executeQueue (.join ())) ∨ (∃ a, Enabled s a ∧ a.OfWorker) ∨
        ∃ t a, s.mutex = some (.thread t) ∧ Enabled s a ∧ a.OfHolder t) ∧
      ∀ acts, (handlerManager π τ table).Admits s acts → .executeQueue (.join ()) ∉ acts →
        acts.countP (Action.OfWorker ·) ≤
          25 * (s.executeQueue.queue.pending.length + acts.countP (Action.Pushes ·)) + 18) ∧
    ∀ tr s, (handlerManager π τ table).Run tr s →
      ∃ acts, (handlerManager π τ table).Admits s acts ∧ (∀ a ∈ acts, a.Finishes) ∧
        AtRest ((handlerManager π τ table).after s acts).executeQueue ∧
        ((handlerManager π τ table).after s acts).pc .worker = .outside := by
  refine ⟨?_, ?_⟩
  · intro tr s hr hjoin
    refine ⟨?_, fun acts hadm hno => workerSteps_le hr hjoin hadm hno⟩
    have h := sound_of_run hr
    have hjoining : PacketExecuteQueue.Joining s.executeQueue := ⟨h.queue, hjoin⟩
    rcases hjoining.progress with hfinished | hstep
    · exact .inl ⟨⟨hjoin, hfinished⟩, trivial⟩
    · obtain ⟨a, hen, ha⟩ := hstep
      cases a with
      | finish e outcome =>
          rcases h.calling hen with hfinish | hprocess | hholder
          · exact .inr (.inl ⟨_, hfinish, trivial⟩)
          · obtain ⟨b, hb, hprocess⟩ := hprocess
            exact .inr (.inl ⟨b, hb, by cases b <;> trivial⟩)
          · exact .inr (.inr hholder)
      | setProcessor o nonEmpty => exact ha.elim
      | _ => exact .inr (.inl ⟨.executeQueue _, ⟨hen, trivial⟩, ha⟩)
  · intro tr s hr
    obtain ⟨acts, hadm, hall, hrest⟩ := reaches_rest hr
    have hprocesses := (sound_of_run (hr.script hadm)).processes
    rw [hrest.2] at hprocesses
    exact ⟨acts, hadm, hall, hrest, hprocesses⟩

/-- **Every packet that was taken off the queue can be settled.**  From every state of a run,
without a new packet and without a new call of `Add` or `Remove`, its call of `ProcessPacket` can
end, and then it was looked up and went where it should. -/
theorem taken_settled {table : HandlerTable H} {tr : List (State π τ H × Action π τ H)}
    (hr : (handlerManager π τ table).Run tr s) {e : Packet π}
    (htaken : e ∈ s.executeQueue.queue.dequeued) :
    ∃ acts, (handlerManager π τ table).Admits s acts ∧ (∀ a ∈ acts, a.Finishes) ∧
      e ∈ ((handlerManager π τ table).after s acts).executeQueue.returns ∧
      ∃ r ∈ (log (tr ++ (handlerManager π τ table).trace s acts)).served, Answers table e r := by
  obtain ⟨acts, hadm, hall, hrest⟩ := reaches_rest hr
  have hrun := hr.script hadm
  have hstill := Admits.invariant (I := fun s : State π τ H => e ∈ s.executeQueue.queue.dequeued)
    (fun s a h hen => queue_next (P := fun q => e ∈ q.queue.dequeued) hen h
      fun b _ _ => PacketExecuteQueue.dequeued_next s.executeQueue b h) hadm htaken
  -- the worker holds nothing and is in no call
  have hreturned : e ∈ ((handlerManager π τ table).after s acts).executeQueue.returns := by
    have hbalanced := (sound_of_run hrun).balanced
    rw [hbalanced.handed, hbalanced.completed, hrest.2] at hstill
    simpa [held, inCall] using hstill
  obtain ⟨done, current, hserved, hdone, -⟩ := (tracked_of_run hrun).routed.answered
  obtain ⟨r, hr, hanswers⟩ := forall₂_mem hdone hreturned
  refine ⟨acts, hadm, hall, hreturned, r, ?_, hanswers⟩
  rw [hserved]
  exact List.mem_append_left _ hr

/-- `Stop` waits for the worker, the worker for the mutex, and a thread in `Add` holds it. -/
def stopDuringAdd : List (Action Unit Unit Unit) :=
  let item : PacketItem := ⟨.REQ_ECHO, 7, [1, 2], 2⟩
  [.executeQueue (.enqueue () item), .executeQueue (.start ()), .executeQueue (.spawn ()),
    .executeQueue .lock, .executeQueue .predRunning, .executeQueue .predPending,
    .executeQueue .testRunning, .executeQueue .unlock, .executeQueue .hasPending,
    .executeQueue (.tryDequeue ⟨(), 0, item⟩), .executeQueue (.invoke ⟨(), 0, item⟩),
    .begin () (.add ⟨1, 7⟩), .lock () (.add ⟨1, 7⟩), .executeQueue (.stop ()),
    .executeQueue (.clear ()), .executeQueue (.endLock ()), .executeQueue (.notifyAll ()),
    .executeQueue (.joinable ())]

theorem stop_completes_add :
    let system := handlerManager Unit Unit (registerAllHandlers ())
    let state := system.after system.init stopDuringAdd
    (∀ acts, system.Admits state acts → .executeQueue (.join ()) ∉ acts →
      acts.countP (Action.OfWorker ·) ≤ 25 * (0 + acts.countP (Action.Pushes ·)) + 18) ∧
    ∃ acts, system.Admits state acts ∧ AtRest (system.after state acts).executeQueue := by
  have hadmits : (handlerManager Unit Unit (registerAllHandlers ())).Admits
      (init (registerAllHandlers ())) stopDuringAdd := by decide
  obtain ⟨hwait, hreach⟩ := @stop_completes Unit Unit Unit _ _ (registerAllHandlers ())
  obtain ⟨-, hbound⟩ := hwait _ _ (run_of_admits hadmits) (by decide)
  obtain ⟨acts, hadm, -, hrest, -⟩ := hreach _ _ (run_of_admits hadmits)
  exact ⟨hbound, acts, hadm, hrest⟩

end Game.HandlerManager
