/-
The program, from the first statement of `main` to the last destructor.

`RegisterService` makes the session manager and the handler manager, enters both into the registry
and starts the handler manager's worker.  From then on the two objects live as long as somebody owns
them: the variables of `RegisterService`, the entries of the registry, and `_sessionManager`, which
the handler manager has copied.  `main` returns, and `~ServiceRegistry` destroys the entries in an
order that nothing specifies.  When the last owner of the handler manager is gone its destructor
runs: `Stop()`, then the members in reverse order of their declaration, the execute queue last.  All
the while the worker runs.

Here that is one system.  The queue's part of the state is that of `executeQueue`, with the main
thread as its owner and no producer, since nothing in the program calls `Enqueue`.
-/
import Mathlib.Data.Finset.Basic
import Cube.Core.Dispatcher.StopReturns

namespace Main

open Library System Core

abbrev QueueState : Type := PacketExecuteQueue.State Empty Unit

abbrev QueueAction : Type := PacketExecuteQueue.Action Empty Unit

/-- The two objects made with `std::make_shared`. -/
inductive Object where
  | sessionManager
  | handlerManager
  deriving DecidableEq

/-- A `std::shared_ptr` that is not null. -/
inductive Owner where
  | named (o : Object)      -- the variable in `RegisterService`
  | entry (o : Object)      -- in `ServiceRegistry::_services`, under the type of the object
  | member                  -- `HandlerManager::_sessionManager`
  deriving DecidableEq

/-- What it points to. -/
def Owner.object : Owner → Object
  | .named o => o
  | .entry o => o
  | .member => .sessionManager

/-- The point the main thread stands at: what it does next. -/
inductive Point where
  | make (o : Object)       -- `std::make_shared`
  | registry (o : Object)   -- `serviceRegistry.Registry`
  | start                   -- `handlerManager->Start()`
  | leave (o : Object)      -- at the end of `RegisterService`, where this variable is destroyed
  | clear                   -- in `~ServiceRegistry`
  | exited
  deriving DecidableEq

/-- How far a running `~HandlerManager` is. -/
inductive Stage where
  | stop                    -- in its body, `Stop()`
  | sessionManager          -- where `_sessionManager` is destroyed
  | handlers                -- where `_handlers` is destroyed
  | executeQueue            -- in `~PacketExecuteQueue`, `Stop()` again
  deriving DecidableEq

structure State where
  executeQueue : QueueState
  owners : Finset Owner
  pc : Point
  destructor : Option Stage
  destroyed : List Object

/-- One step of the main thread, or of the worker. -/
inductive Action where
  | make (o : Object)
  | registry (o : Object)
  | executeQueue (a : QueueAction)   -- in `Start` or `Stop`, or of the worker
  | leave (o : Object)
  | clear (o : Object)               -- an entry of the registry is destroyed
  | destroyMember
  | destroyHandlers
  | exit
  deriving DecidableEq

/-- Nothing has been made yet. -/
def init : State where
  executeQueue := PacketExecuteQueue.init
  owners := ∅
  pc := .make .sessionManager
  destructor := none
  destroyed := []

/-- Whether a step of the queue is one of the place the main thread stands at. -/
def Fits (s : State) : QueueAction → Prop
  | .start _ | .spawn _ => s.pc = .start
  | .stop _ | .clear _ | .endLock _ | .notifyAll _ | .joinable _ | .notJoinable _ | .join _ =>
      s.destructor = some .stop ∨ s.destructor = some .executeQueue
  | .setProcessor _ _ | .enqueue _ _ | .notifyOne _ => False
  | _ => True

def Enabled (s : State) : Action → Prop
  | .make o => s.pc = .make o
  | .registry o => s.pc = .registry o
  | .executeQueue a => PacketExecuteQueue.Enabled s.executeQueue a ∧ Fits s a
  | .leave o => s.pc = .leave o ∧ s.destructor = none
  | .clear o => s.pc = .clear ∧ s.destructor = none ∧ .entry o ∈ s.owners
  | .destroyMember => s.destructor = some .sessionManager
  | .destroyHandlers => s.destructor = some .handlers
  | .exit => s.pc = .clear ∧ s.destructor = none ∧ ∀ o, .entry o ∉ s.owners

instance (s : State) : ∀ a, Decidable (Fits s a)
  | .start _ | .spawn _ => inferInstanceAs (Decidable (_ = _))
  | .stop _ | .clear _ | .endLock _ | .notifyAll _ | .joinable _ | .notJoinable _ | .join _ =>
      inferInstanceAs (Decidable (_ ∨ _))
  | .setProcessor _ _ | .enqueue _ _ | .notifyOne _ => isFalse id
  | .lock | .predRunning | .predPending | .block | .wake | .relock => isTrue trivial
  | .testRunning | .testPending | .unlock | .exit => isTrue trivial
  | .hasPending | .tryDequeue _ | .tryDequeueFalse | .invoke _ | .finish _ _ => isTrue trivial

instance (s : State) : ∀ a, Decidable (Enabled s a)
  | .make _ | .registry _ => inferInstanceAs (Decidable (_ = _))
  | .executeQueue _ | .leave _ => inferInstanceAs (Decidable (_ ∧ _))
  | .clear _ => inferInstanceAs (Decidable (_ ∧ _ ∧ _))
  | .destroyMember | .destroyHandlers => inferInstanceAs (Decidable (_ = _))
  | .exit => decidable_of_iff (s.pc = .clear ∧ s.destructor = none ∧
      .entry .sessionManager ∉ s.owners ∧ .entry .handlerManager ∉ s.owners) (by
        refine and_congr_right fun _ => and_congr_right fun _ => ⟨?_, fun h => ⟨h _, h _⟩⟩
        intro h o
        cases o
        · exact h.1
        · exact h.2)

/-- The owner lets go.  If it was the last one the object is destroyed, which for the handler
manager takes further steps. -/
def State.release (s : State) (r : Owner) : State :=
  if ∃ r' ∈ s.owners.erase r, r'.object = r.object then { s with owners := s.owners.erase r }
  else
    match r.object with
    | .sessionManager =>
        { s with
          owners := s.owners.erase r
          destroyed := s.destroyed ++ [.sessionManager] }
    | .handlerManager => { s with owners := s.owners.erase r, destructor := some .stop }

/-- Where the main thread goes on when the queue's `Start` or `Stop` returns. -/
def State.returned (s : State) : QueueAction → State
  | .spawn _ => { s with pc := .leave .handlerManager }
  | .notJoinable _ | .join _ =>
      match s.destructor with
      | some .stop => { s with destructor := some .sessionManager }
      | some .executeQueue =>
          { s with destructor := none, destroyed := s.destroyed ++ [.handlerManager] }
      | _ => s
  | _ => s

/-- What a step does. -/
def next (s : State) : Action → State
  | .make .sessionManager =>
      { s with owners := insert (.named .sessionManager) s.owners, pc := .registry .sessionManager }
  -- the constructor copies the pointer and sets the processor
  | .make .handlerManager =>
      { s with
        executeQueue := PacketExecuteQueue.next PacketExecuteQueue.init (.setProcessor () true)
        owners := insert (.named .handlerManager) (insert .member s.owners)
        pc := .registry .handlerManager }
  | .registry o =>
      { s with
        owners := insert (.entry o) s.owners
        pc := match o with
          | .sessionManager => .make .handlerManager
          | .handlerManager => .start }
  | .executeQueue a =>
      { s.returned a with executeQueue := PacketExecuteQueue.next s.executeQueue a }
  -- the variable declared last is destroyed first
  | .leave .handlerManager =>
      { s.release (.named .handlerManager) with pc := .leave .sessionManager }
  | .leave .sessionManager => { s.release (.named .sessionManager) with pc := .clear }
  | .clear o => s.release (.entry o)
  | .destroyMember => { s.release .member with destructor := some .handlers }
  | .destroyHandlers => { s with destructor := some .executeQueue }
  | .exit => { s with pc := .exited }

/-- The program. -/
def program : System State Action where
  init := init
  Enabled := Enabled
  next := next

instance (s : State) (a : Action) : Decidable (program.Enabled s a) :=
  inferInstanceAs (Decidable (Enabled s a))

/-! ### Who owns what, and where -/

/-- The entry of the session manager, if it is still there. -/
def entries (left : Bool) : Finset Owner := if left then {.entry .sessionManager} else ∅

/-- What is destroyed once the handler manager has let go of the session manager. -/
def gone (left : Bool) : List Object := if left then [] else [.sessionManager]

/-- The owners that are left after `RegisterService`. -/
def shared : Finset Owner :=
  {.entry .sessionManager, .entry .handlerManager, .member}

/-- The owners and the objects destroyed, at each point of the main thread. -/
def Layout (owners : Finset Owner) (destroyed : List Object) : Point → Option Stage → Prop
  | .make .sessionManager, none => owners = ∅ ∧ destroyed = []
  | .registry .sessionManager, none => owners = {.named .sessionManager} ∧ destroyed = []
  | .make .handlerManager, none =>
      owners = {.named .sessionManager, .entry .sessionManager} ∧ destroyed = []
  | .registry .handlerManager, none =>
      owners = {.named .sessionManager, .entry .sessionManager, .named .handlerManager, .member} ∧
        destroyed = []
  | .start, none | .leave .handlerManager, none =>
      owners = insert (.named .sessionManager) (insert (.named .handlerManager) shared) ∧
        destroyed = []
  | .leave .sessionManager, none =>
      owners = insert (.named .sessionManager) shared ∧ destroyed = []
  | .clear, none =>
      (∃ left, owners = insert (.entry .handlerManager) (insert .member (entries left)) ∧
        destroyed = []) ∨
      (∃ left, owners = entries left ∧ destroyed = gone left ++ [.handlerManager]) ∨
      owners = ∅ ∧ destroyed = [.handlerManager, .sessionManager]
  | .clear, some .stop | .clear, some .sessionManager =>
      ∃ left, owners = insert .member (entries left) ∧ destroyed = []
  | .clear, some .handlers | .clear, some .executeQueue =>
      ∃ left, owners = entries left ∧ destroyed = gone left
  | .exited, none =>
      owners = ∅ ∧ (destroyed = [.sessionManager, .handlerManager] ∨
        destroyed = [.handlerManager, .sessionManager])
  | _, _ => False

/-- Where the owner and the worker of the queue are meanwhile; `entered` says that the registry has
the handler manager. -/
def Threads (q : QueueState) (entered : Prop) : Point → Option Stage → Prop
  | .start, none => q.pc .worker = .idle ∧ (q.pc (.owner ()) = .idle ∨ q.pc (.owner ()) = .spawn)
  | .leave _, none => q.pc .worker ≠ .idle ∧ q.pc (.owner ()) = .idle
  | .clear, none => (q.pc .worker ≠ .idle ↔ entered) ∧ q.pc (.owner ()) = .idle
  | .clear, some .stop => q.pc .worker ≠ .idle
  | .clear, some .executeQueue => q.pc .worker = .idle ∧ q.pc (.owner ()) ≠ .spawn
  | _, _ => q.pc .worker = .idle ∧ q.pc (.owner ()) = .idle

structure Sound (s : State) : Prop where
  queue : PacketExecuteQueue.Sound s.executeQueue
  layout : Layout s.owners s.destroyed s.pc s.destructor
  threads : Threads s.executeQueue (.entry .handlerManager ∈ s.owners) s.pc s.destructor

/-- The layout where the place of the main thread is known. -/
theorem Sound.layout_at {s : State} {p : Point} {d : Option Stage} (h : Sound s) (hpc : s.pc = p)
    (hd : s.destructor = d) : Layout s.owners s.destroyed p d := by
  rw [← hpc, ← hd]
  exact h.layout

theorem Sound.threads_at {s : State} {p : Point} {d : Option Stage} (h : Sound s) (hpc : s.pc = p)
    (hd : s.destructor = d) :
    Threads s.executeQueue (.entry .handlerManager ∈ s.owners) p d := by
  rw [← hpc, ← hd]
  exact h.threads

/-- All of it for such a place. -/
theorem sound_at {s : State} {p : Point} {d : Option Stage} (hpc : s.pc = p)
    (hd : s.destructor = d) (hqueue : PacketExecuteQueue.Sound s.executeQueue)
    (hlayout : Layout s.owners s.destroyed p d)
    (hthreads : Threads s.executeQueue (.entry .handlerManager ∈ s.owners) p d) : Sound s where
  queue := hqueue
  layout := by
    rw [hpc, hd]
    exact hlayout
  threads := by
    rw [hpc, hd]
    exact hthreads

theorem sound_init : Sound init where
  queue := PacketExecuteQueue.sound_of_run .nil
  layout := ⟨rfl, rfl⟩
  threads := ⟨rfl, rfl⟩

/-! ### One step of the queue -/

/-- Only the owner's place and whether there is a worker count. -/
theorem Threads.congr {q q' : QueueState} {entered : Prop} {p : Point} {d : Option Stage}
    (h : Threads q entered p d) (howner : q'.pc (.owner ()) = q.pc (.owner ()))
    (hworker : q'.pc .worker = .idle ↔ q.pc .worker = .idle) : Threads q' entered p d := by
  unfold Threads at h ⊢
  rw [howner]
  split at h <;> simp_all

theorem notify_idle (q : QueueState) : q.notify.pc .worker = .idle ↔ q.pc .worker = .idle := by
  rcases PacketExecuteQueue.notify_cases q with ⟨hpc, heq⟩ | ⟨-, heq⟩
  · simp [heq, hpc]
  · rw [heq]

/-- A step after which the main thread stays where it is. -/
theorem Sound.stays {s : State} {a : QueueAction} (h : Sound s)
    (hen : PacketExecuteQueue.Enabled s.executeQueue a) (hreturned : s.returned a = s)
    (hthreads : Threads (PacketExecuteQueue.next s.executeQueue a)
      (.entry .handlerManager ∈ s.owners) s.pc s.destructor) :
    Sound (next s (.executeQueue a)) := by
  have hnext : next s (.executeQueue a)
      = { s with executeQueue := PacketExecuteQueue.next s.executeQueue a } := by
    show { s.returned a with
      executeQueue := PacketExecuteQueue.next s.executeQueue a : State } = _
    rw [hreturned]
  rw [hnext]
  exact ⟨PacketExecuteQueue.sound_next _ _ h.queue hen, h.layout, hthreads⟩

/-- The worker's steps change nothing that the main thread could see. -/
theorem sound_worker {s : State} {a : QueueAction} (h : Sound s)
    (hen : PacketExecuteQueue.Enabled s.executeQueue a) (ha : a.OfWorker) :
    Sound (next s (.executeQueue a)) := by
  obtain ⟨f, hmove⟩ := PacketExecuteQueue.worker_step hen ha
  apply h.stays hen
  · cases a <;> first | rfl | exact ha.elim
  · apply h.threads.congr
    · rw [hmove.pc, Function.update_of_ne (by simp)]
    · rw [hmove.pc, Function.update_self]
      exact iff_of_false hmove.stays hmove.alive

/-- A destructor runs only when the registry is being destroyed. -/
theorem Sound.clearing {s : State} (h : Sound s) {d : Stage} (hd : s.destructor = some d) :
    s.pc = .clear := by
  have hlayout := h.layout
  rw [hd] at hlayout
  unfold Layout at hlayout
  split at hlayout <;> simp_all

/-- The steps of `Start`. -/
theorem sound_start {s : State} {a : QueueAction} (h : Sound s)
    (hen : PacketExecuteQueue.Enabled s.executeQueue a) (hpc : s.pc = .start)
    (ha : a = .start () ∨ a = .spawn ()) : Sound (next s (.executeQueue a)) := by
  have hqueue := PacketExecuteQueue.sound_next _ _ h.queue hen
  obtain ⟨-, hlayout, hthreads⟩ := h
  obtain ⟨q, owners, p, d, destroyed⟩ := s
  obtain rfl : p = .start := hpc
  obtain rfl : d = none := by
    cases d with
    | none => rfl
    | some d => exact hlayout.elim
  rcases ha with rfl | rfl
  · have hworker : q.pc .worker = .idle := hen.2
    refine ⟨hqueue, hlayout, ?_⟩
    show Threads (PacketExecuteQueue.next q (.start ())) _ .start none
    simp [Threads, PacketExecuteQueue.next, hworker]
  · refine ⟨hqueue, hlayout, ?_⟩
    show Threads (PacketExecuteQueue.next q (.spawn ())) _ (.leave .handlerManager) none
    simp [Threads, PacketExecuteQueue.next]

/-- `Stop` in the body of `~HandlerManager`: it has to join the worker. -/
theorem sound_stop {s : State} {a : QueueAction} (h : Sound s)
    (hen : PacketExecuteQueue.Enabled s.executeQueue a) (hd : s.destructor = some .stop)
    (hfits : Fits s a) (ha : ¬a.OfWorker) : Sound (next s (.executeQueue a)) := by
  have hpc := h.clearing hd
  have hworker : s.executeQueue.pc .worker ≠ .idle :=
    h.threads_at hpc hd
  cases a with
  | start o | spawn o => exact absurd (hpc.symm.trans hfits) (by simp)
  | stop o | clear o | endLock o | notifyAll o | joinable o =>
      apply h.stays hen rfl
      rw [hpc, hd]
      show (PacketExecuteQueue.next _ _).pc .worker ≠ .idle
      simp [PacketExecuteQueue.next, notify_idle, hworker]
  | notJoinable o => exact absurd hen.2 hworker
  | join o =>
      have hlayout := h.layout_at hpc hd
      have hnext : next s (.executeQueue (.join o))
          = { s with
              executeQueue := PacketExecuteQueue.next s.executeQueue (.join o)
              destructor := some .sessionManager } := by
        simp [next, State.returned, hd]
      rw [hnext]
      refine ⟨PacketExecuteQueue.sound_next _ _ h.queue hen, ?_, ?_⟩
      · rw [hpc]
        exact hlayout
      · rw [hpc]
        show _ ∧ _
        simp [PacketExecuteQueue.next]
  | setProcessor o nonEmpty => exact hfits.elim
  | enqueue i item => exact hfits.elim
  | notifyOne i => exact hfits.elim
  | _ => exact absurd trivial ha

/-- `Stop` in `~PacketExecuteQueue`: there is nothing left to join. -/
theorem sound_executeQueue {s : State} {a : QueueAction} (h : Sound s)
    (hen : PacketExecuteQueue.Enabled s.executeQueue a) (hd : s.destructor = some .executeQueue)
    (hfits : Fits s a) (ha : ¬a.OfWorker) : Sound (next s (.executeQueue a)) := by
  have hpc := h.clearing hd
  obtain ⟨hworker, hspawn⟩ : s.executeQueue.pc .worker = .idle ∧
      s.executeQueue.pc (.owner ()) ≠ .spawn :=
    h.threads_at hpc hd
  cases a with
  | start o | spawn o => exact absurd (hpc.symm.trans hfits) (by simp)
  | stop o | clear o | endLock o | notifyAll o | joinable o =>
      apply h.stays hen rfl
      rw [hpc, hd]
      show (PacketExecuteQueue.next _ _).pc .worker = .idle ∧ _ ≠ _
      simp [PacketExecuteQueue.next, notify_idle, hworker]
  | notJoinable o =>
      have hlayout := h.layout_at hpc hd
      obtain ⟨left, howners, hdestroyed⟩ := hlayout
      have hnext : next s (.executeQueue (.notJoinable o))
          = { s with
              executeQueue := PacketExecuteQueue.next s.executeQueue (.notJoinable o)
              destructor := none
              destroyed := s.destroyed ++ [.handlerManager] } := by
        simp [next, State.returned, hd]
      rw [hnext]
      refine ⟨PacketExecuteQueue.sound_next _ _ h.queue hen, ?_, ?_⟩
      · rw [hpc]
        exact .inr (.inl ⟨left, howners, by rw [hdestroyed]⟩)
      · rw [hpc]
        have hentered : Owner.entry .handlerManager ∉ s.owners := by
          rw [howners]
          cases left <;> decide
        show (_ ↔ _) ∧ _
        simp [PacketExecuteQueue.next, hworker, hentered]
  | join o => exact absurd (hworker.symm.trans hen.2) (by simp)
  | setProcessor o nonEmpty => exact hfits.elim
  | enqueue i item => exact hfits.elim
  | notifyOne i => exact hfits.elim
  | _ => exact absurd trivial ha

/-! ### One step of `main` -/

/-- Before `main` returns no destructor runs. -/
theorem Sound.no_destructor {s : State} (h : Sound s) (hpc : s.pc ≠ .clear) :
    s.destructor = none := by
  cases hd : s.destructor with
  | none => rfl
  | some d => exact absurd (h.clearing hd) hpc

theorem release_keeps {s : State} {r : Owner}
    (h : ∃ r' ∈ s.owners.erase r, r'.object = r.object) :
    s.release r = { s with owners := s.owners.erase r } := if_pos h

/-- The last owner of the session manager lets go. -/
theorem release_sessionManager {s : State} {r : Owner} (hr : r.object = .sessionManager)
    (h : ¬∃ r' ∈ s.owners.erase r, r'.object = r.object) :
    s.release r = { s with
      owners := s.owners.erase r
      destroyed := s.destroyed ++ [.sessionManager] } := by
  unfold State.release
  rw [if_neg h, hr]

/-- The last owner of the handler manager lets go. -/
theorem release_handlerManager {s : State} {r : Owner} (hr : r.object = .handlerManager)
    (h : ¬∃ r' ∈ s.owners.erase r, r'.object = r.object) :
    s.release r = { s with owners := s.owners.erase r, destructor := some .stop } := by
  unfold State.release
  rw [if_neg h, hr]

theorem sound_make {s : State} {o : Object} (h : Sound s) (hpc : s.pc = .make o) :
    Sound (next s (.make o)) := by
  have hd := h.no_destructor (by simp [hpc])
  have hlayout := h.layout_at hpc hd
  have hthreads := h.threads_at hpc hd
  cases o with
  | sessionManager =>
      obtain ⟨howners, hdestroyed⟩ := hlayout
      have howners' : insert (.named .sessionManager) s.owners = {.named .sessionManager} := by
        rw [howners]
        rfl
      exact sound_at rfl hd h.queue ⟨howners', hdestroyed⟩ hthreads
  | handlerManager =>
      obtain ⟨howners, hdestroyed⟩ := hlayout
      have howners' : insert (.named .handlerManager) (insert .member s.owners)
          = {.named .sessionManager, .entry .sessionManager, .named .handlerManager, .member} := by
        rw [howners]
        decide
      have hnew : PacketExecuteQueue.Sound
          (PacketExecuteQueue.next PacketExecuteQueue.init (.setProcessor () true) : QueueState) :=
        PacketExecuteQueue.sound_next _ _ (PacketExecuteQueue.sound_of_run .nil) ⟨rfl, rfl⟩
      exact sound_at rfl hd hnew ⟨howners', hdestroyed⟩ ⟨rfl, rfl⟩

theorem sound_registry {s : State} {o : Object} (h : Sound s) (hpc : s.pc = .registry o) :
    Sound (next s (.registry o)) := by
  have hd := h.no_destructor (by simp [hpc])
  have hlayout := h.layout_at hpc hd
  have hthreads := h.threads_at hpc hd
  cases o with
  | sessionManager =>
      obtain ⟨howners, hdestroyed⟩ := hlayout
      have howners' : insert (.entry .sessionManager) s.owners
          = {.named .sessionManager, .entry .sessionManager} := by
        rw [howners]
        decide
      exact sound_at rfl hd h.queue ⟨howners', hdestroyed⟩ hthreads
  | handlerManager =>
      obtain ⟨howners, hdestroyed⟩ := hlayout
      have howners' : insert (.entry .handlerManager) s.owners
          = insert (.named .sessionManager) (insert (.named .handlerManager) shared) := by
        rw [howners]
        decide
      exact sound_at rfl hd h.queue ⟨howners', hdestroyed⟩ ⟨hthreads.1, .inl hthreads.2⟩

/-- The variables of `RegisterService` are destroyed; the registry still owns both objects. -/
theorem leave_sessionManager {s : State} (h : Sound s) (hpc : s.pc = .leave .sessionManager)
    (hd : s.destructor = none) : next s (.leave .sessionManager) = { s with
      owners := insert (.entry .handlerManager) (insert .member (entries true))
      pc := .clear } := by
  have hlayout := h.layout_at hpc hd
  have hkeep := release_keeps (s := s) (r := .named .sessionManager) (by rw [hlayout.1]; decide)
  have howners : s.owners.erase (.named .sessionManager)
      = insert (.entry .handlerManager) (insert .member (entries true)) := by
    rw [hlayout.1]
    decide
  rw [← howners]
  simp [next, hkeep]

theorem sound_leave {s : State} {o : Object} (h : Sound s) (hpc : s.pc = .leave o)
    (hd : s.destructor = none) : Sound (next s (.leave o)) := by
  cases o with
  | sessionManager =>
      rw [leave_sessionManager h hpc hd]
      have hlayout := h.layout_at hpc hd
      have hthreads := h.threads_at hpc hd
      exact sound_at rfl hd h.queue (.inl ⟨true, rfl, hlayout.2⟩)
        ⟨iff_of_true hthreads.1 (Finset.mem_insert_self ..), hthreads.2⟩
  | handlerManager =>
      have hlayout := h.layout_at hpc hd
      have hthreads := h.threads_at hpc hd
      have hkeep := release_keeps (s := s) (r := .named .handlerManager)
        (by rw [hlayout.1]; decide)
      have hnext : next s (.leave .handlerManager) = { s with
          owners := s.owners.erase (.named .handlerManager), pc := .leave .sessionManager } := by
        simp [next, hkeep]
      have howners : s.owners.erase (.named .handlerManager)
          = insert (.named .sessionManager) shared := by
        rw [hlayout.1]
        decide
      rw [hnext, howners]
      exact sound_at rfl hd h.queue ⟨rfl, hlayout.2⟩ hthreads

/-- An entry of the registry is destroyed, whichever comes first. -/
theorem sound_clear {s : State} {o : Object} (h : Sound s)
    (hen : Enabled s (.clear o)) : Sound (next s (.clear o)) := by
  obtain ⟨hpc, hd, hmem⟩ := hen
  have hlayout := h.layout_at hpc hd
  have hthreads := h.threads_at hpc hd
  show Sound (s.release (.entry o))
  rcases hlayout with ⟨left, howners, hdestroyed⟩ | ⟨left, howners, hdestroyed⟩ | ⟨howners, -⟩
  · have hworker : s.executeQueue.pc .worker ≠ .idle :=
      hthreads.1.mpr (by rw [howners]; exact Finset.mem_insert_self ..)
    cases o with
    | sessionManager =>
        obtain rfl : left = true := by
          cases left
          · rw [howners] at hmem
            exact absurd hmem (by decide)
          · rfl
        rw [release_keeps (by rw [howners]; decide)]
        have howners' : s.owners.erase (.entry .sessionManager)
            = insert (.entry .handlerManager) (insert .member (entries false)) := by
          rw [howners]
          decide
        rw [howners']
        exact sound_at hpc hd h.queue (.inl ⟨false, rfl, hdestroyed⟩)
          ⟨iff_of_true hworker (Finset.mem_insert_self ..), hthreads.2⟩
    | handlerManager =>
        have howners' : s.owners.erase (.entry .handlerManager)
            = insert .member (entries left) := by
          rw [howners]
          cases left <;> decide
        rw [release_handlerManager rfl (by rw [howners]; cases left <;> decide), howners']
        exact sound_at hpc rfl h.queue ⟨left, rfl, hdestroyed⟩ hworker
  · obtain ⟨rfl, rfl⟩ : left = true ∧ o = .sessionManager := by
      rw [howners] at hmem
      cases left <;> cases o <;> first | exact ⟨rfl, rfl⟩ | exact absurd hmem (by decide)
    have hentered : Owner.entry .handlerManager ∉ s.owners := by
      rw [howners]
      decide
    have howners' : s.owners.erase (.entry .sessionManager) = ∅ := by
      rw [howners]
      decide
    have hidle : ¬s.executeQueue.pc .worker ≠ .idle := fun hne => hentered (hthreads.1.mp hne)
    rw [release_sessionManager rfl (by rw [howners]; decide), howners', hdestroyed]
    exact sound_at hpc hd h.queue (.inr (.inr ⟨rfl, rfl⟩))
      ⟨iff_of_false hidle (Finset.notMem_empty _), hthreads.2⟩
  · rw [howners] at hmem
    exact absurd hmem (by simp)

/-- The handler manager lets go of the session manager. -/
theorem destroyMember_eq {s : State} (h : Sound s) (hd : s.destructor = some .sessionManager) :
    ∃ left, s.owners = insert .member (entries left) ∧ next s .destroyMember = { s with
      owners := entries left
      destructor := some .handlers
      destroyed := gone left } := by
  have hlayout := h.layout_at (h.clearing hd) hd
  obtain ⟨left, howners, hdestroyed⟩ := hlayout
  have howners' : s.owners.erase .member = entries left := by
    rw [howners]
    cases left <;> decide
  refine ⟨left, howners, ?_⟩
  cases left with
  | true =>
      have hkeep := release_keeps (s := s) (r := .member) (by rw [howners]; decide)
      simp [next, hkeep, howners', hdestroyed, gone]
  | false =>
      have hlast := release_sessionManager (s := s) (r := .member) rfl (by rw [howners]; decide)
      simp [next, hlast, howners', hdestroyed, gone]

theorem sound_destroyMember {s : State} (h : Sound s)
    (hd : s.destructor = some .sessionManager) : Sound (next s .destroyMember) := by
  have hpc := h.clearing hd
  obtain ⟨left, -, hnext⟩ := destroyMember_eq h hd
  rw [hnext]
  exact sound_at hpc rfl h.queue ⟨left, rfl, rfl⟩ (h.threads_at hpc hd)

theorem sound_destroyHandlers {s : State} (h : Sound s) (hd : s.destructor = some .handlers) :
    Sound (next s .destroyHandlers) := by
  have hpc := h.clearing hd
  have hlayout := h.layout_at hpc hd
  have hthreads := h.threads_at hpc hd
  have hspawn : s.executeQueue.pc (.owner ()) ≠ .spawn := by
    rw [hthreads.2]
    simp
  exact sound_at hpc rfl h.queue hlayout ⟨hthreads.1, hspawn⟩

theorem sound_exit {s : State} (h : Sound s) (hen : Enabled s .exit) : Sound (next s .exit) := by
  obtain ⟨hpc, hd, hnone⟩ := hen
  have hlayout := h.layout_at hpc hd
  have hthreads := h.threads_at hpc hd
  have hempty : s.owners = ∅ ∧ (s.destroyed = [.sessionManager, .handlerManager] ∨
      s.destroyed = [.handlerManager, .sessionManager]) := by
    rcases hlayout with ⟨left, howners, -⟩ | ⟨left, howners, hdestroyed⟩ | ⟨howners, hdestroyed⟩
    · exact absurd (by rw [howners]; exact Finset.mem_insert_self ..) (hnone .handlerManager)
    · cases left with
      | true => exact absurd (by rw [howners]; decide) (hnone .sessionManager)
      | false => exact ⟨howners, .inl hdestroyed⟩
    · exact ⟨howners, .inr hdestroyed⟩
  have hidle : ¬s.executeQueue.pc .worker ≠ .idle := fun hne => hnone _ (hthreads.1.mp hne)
  exact sound_at rfl hd h.queue hempty ⟨not_not.mp hidle, hthreads.2⟩

theorem sound_next (s : State) (a : Action) (h : Sound s) (hen : Enabled s a) :
    Sound (next s a) := by
  cases a with
  | make o => exact sound_make h hen
  | registry o => exact sound_registry h hen
  | executeQueue a =>
      obtain ⟨hstep, hfits⟩ := hen
      by_cases ha : a.OfWorker
      · exact sound_worker h hstep ha
      cases a with
      | start o => exact sound_start h hstep hfits (.inl rfl)
      | spawn o => exact sound_start h hstep hfits (.inr rfl)
      | stop o | clear o | endLock o | notifyAll o | joinable o | notJoinable o | join o =>
          have hstage := hfits
          rcases hstage with hd | hd
          · exact sound_stop h hstep hd hfits ha
          · exact sound_executeQueue h hstep hd hfits ha
      | setProcessor o nonEmpty => exact hfits.elim
      | enqueue i item => exact hfits.elim
      | notifyOne i => exact hfits.elim
      | _ => exact absurd trivial ha
  | leave o => exact sound_leave h hen.1 hen.2
  | clear o => exact sound_clear h hen
  | destroyMember => exact sound_destroyMember h hen
  | destroyHandlers => exact sound_destroyHandlers h hen
  | exit => exact sound_exit h hen

theorem sound_of_run {tr : List (State × Action)} {s : State} (hr : program.Run tr s) : Sound s :=
  hr.invariant sound_init sound_next

/-! ### The way to the end -/

/-- Nothing was ever pushed. -/
theorem pending_nil (q : QueueState) : q.queue.pending = [] := by
  rw [List.eq_nil_iff_forall_not_mem]
  intro e _
  exact e.producer.elim

theorem toRest_lt_hundred (q : QueueState) : PacketExecuteQueue.toRest q < 100 := by
  have hleave := (PacketExecuteQueue.leaveRank_le (q.queue.pending = []) (q.pc .worker)).2
  have hrelease : PacketExecuteQueue.releaseRank (q.pc .worker) ≤ 5 := by
    cases q.pc .worker <;> simp [PacketExecuteQueue.releaseRank]
  have hlength : q.queue.pending.length = 0 := by rw [pending_nil]; rfl
  unfold PacketExecuteQueue.toRest
  split
  · omega
  · cases q.pc (.owner ()) <;> simp only [PacketExecuteQueue.ownerRest] <;> omega

/-- The steps of a `Stop` that finds no thread. -/
def stopRank : PacketExecuteQueue.Point Empty → Nat
  | .idle => 5
  | .clear => 4
  | .endLock => 3
  | .notifyAll => 2
  | .joinable => 1
  | _ => 0

def entryRank (owners : Finset Owner) (o : Object) : Nat := if .entry o ∈ owners then 1 else 0

/-- How far the main thread is from the end: a hundred for each of its own steps, and less than that
for those of the queue in between. -/
def State.toExit (s : State) : Nat :=
  match s.pc, s.destructor with
  | .make .sessionManager, _ => 1400
  | .registry .sessionManager, _ => 1300
  | .make .handlerManager, _ => 1200
  | .registry .handlerManager, _ => 1100
  | .start, _ => 1000 + stopRank (s.executeQueue.pc (.owner ()))
  | .leave .handlerManager, _ => 900
  | .leave .sessionManager, _ => 800
  | .clear, none =>
      100 * (1 + entryRank s.owners .sessionManager + 5 * entryRank s.owners .handlerManager)
  | .clear, some .stop =>
      100 * (5 + entryRank s.owners .sessionManager) + PacketExecuteQueue.toRest s.executeQueue
  | .clear, some .sessionManager => 100 * (4 + entryRank s.owners .sessionManager)
  | .clear, some .handlers => 100 * (3 + entryRank s.owners .sessionManager)
  | .clear, some .executeQueue =>
      100 * (2 + entryRank s.owners .sessionManager) +
        stopRank (s.executeQueue.pc (.owner ()))
  | .exited, _ => 0

/-- Some step brings the program nearer to its end. -/
def Progresses (s : State) : Prop := ∃ a, Enabled s a ∧ (next s a).toExit < s.toExit

/-- `Stop` in the body of `~HandlerManager`. -/
theorem progresses_stop {s : State} (h : Sound s) (hd : s.destructor = some .stop) :
    Progresses s := by
  have hpc := h.clearing hd
  have hworker : s.executeQueue.pc .worker ≠ .idle :=
    h.threads_at hpc hd
  have hspawn : s.executeQueue.pc (.owner ()) ≠ .spawn :=
    fun hpc' => hworker (h.queue.alternates.spawning hpc').1
  obtain ⟨a, hen, hno, hlt⟩ := h.queue.toRest_lt fun hrest => hworker hrest.2
  have hstill : s.returned a = s →
      (next s (.executeQueue a)).toExit < s.toExit := by
    intro hreturned
    have hnext : next s (.executeQueue a)
        = { s with executeQueue := PacketExecuteQueue.next s.executeQueue a } := by
      show { s.returned a with
        executeQueue := PacketExecuteQueue.next s.executeQueue a : State } = _
      rw [hreturned]
    rw [hnext]
    simp only [State.toExit, hpc, hd]
    omega
  cases a with
  | enqueue i item | notifyOne i => exact absurd trivial hno
  | setProcessor o nonEmpty => exact absurd hen.2 hworker
  | start o => exact absurd hen.2 hworker
  | spawn o => exact absurd hen.1 hspawn
  | notJoinable o => exact absurd hen.2 hworker
  | join o =>
      refine ⟨.executeQueue (.join o), ⟨hen, .inl hd⟩, ?_⟩
      simp only [next, State.returned, State.toExit, hpc, hd]
      omega
  | stop o => exact ⟨.executeQueue (.stop o), ⟨hen, .inl hd⟩, hstill rfl⟩
  | clear o => exact ⟨.executeQueue (.clear o), ⟨hen, .inl hd⟩, hstill rfl⟩
  | endLock o => exact ⟨.executeQueue (.endLock o), ⟨hen, .inl hd⟩, hstill rfl⟩
  | notifyAll o => exact ⟨.executeQueue (.notifyAll o), ⟨hen, .inl hd⟩, hstill rfl⟩
  | joinable o => exact ⟨.executeQueue (.joinable o), ⟨hen, .inl hd⟩, hstill rfl⟩
  | _ => exact ⟨.executeQueue _, ⟨hen, trivial⟩, hstill rfl⟩

/-- `Stop` in `~PacketExecuteQueue`. -/
theorem progresses_executeQueue {s : State} (h : Sound s)
    (hd : s.destructor = some .executeQueue) : Progresses s := by
  have hpc := h.clearing hd
  obtain ⟨hworker, hspawn⟩ : s.executeQueue.pc .worker = .idle ∧
      s.executeQueue.pc (.owner ()) ≠ .spawn :=
    h.threads_at hpc hd
  have hlayout := h.layout_at hpc hd
  obtain ⟨left, howners, -⟩ := hlayout
  have hplace := h.queue.placed (.owner ())
  cases howner : s.executeQueue.pc (.owner ()) with
  | spawn => exact absurd howner hspawn
  | idle =>
      have hfree : s.executeQueue.mutex = none :=
        h.queue.free (by simp [howner, PacketExecuteQueue.Inside])
          (by simp [hworker, PacketExecuteQueue.Inside])
      refine ⟨.executeQueue (.stop ()), ⟨⟨howner, hfree⟩, .inr hd⟩, ?_⟩
      simp [next, State.returned, State.toExit, PacketExecuteQueue.next, hpc, hd, howner, stopRank]
  | clear =>
      refine ⟨.executeQueue (.clear ()), ⟨howner, .inr hd⟩, ?_⟩
      simp [next, State.returned, State.toExit, PacketExecuteQueue.next, hpc, hd, howner, stopRank]
  | endLock =>
      refine ⟨.executeQueue (.endLock ()), ⟨howner, .inr hd⟩, ?_⟩
      simp [next, State.returned, State.toExit, PacketExecuteQueue.next, hpc, hd, howner, stopRank]
  | notifyAll =>
      refine ⟨.executeQueue (.notifyAll ()), ⟨howner, .inr hd⟩, ?_⟩
      simp [next, State.returned, State.toExit, PacketExecuteQueue.next, hpc, hd, howner, stopRank]
  | joinable =>
      have hentry : entryRank s.owners .handlerManager = 0 := by
        rw [howners]
        cases left <;> decide
      refine ⟨.executeQueue (.notJoinable ()), ⟨⟨howner, hworker⟩, .inr hd⟩, ?_⟩
      simp only [next, State.returned, State.toExit, hpc, hd, howner, stopRank, hentry]
      omega
  | join => exact absurd hworker (h.queue.alternates.joining howner)
  | _ =>
      rw [howner] at hplace
      exact hplace.elim

/-- In `~ServiceRegistry`, outside every destructor: the handler manager's entry, the session
manager's, or the end. -/
theorem progresses_clear {s : State} (h : Sound s) (hpc : s.pc = .clear)
    (hd : s.destructor = none) : Progresses s := by
  have hlayout := h.layout_at hpc hd
  have hrest := toRest_lt_hundred s.executeQueue
  rcases hlayout with ⟨left, howners, -⟩ | ⟨left, howners, -⟩ | ⟨howners, -⟩
  · refine ⟨.clear .handlerManager, ⟨hpc, hd, by rw [howners]; exact Finset.mem_insert_self ..⟩, ?_⟩
    have hlast := release_handlerManager (s := s) (r := .entry .handlerManager) rfl
      (by rw [howners]; cases left <;> decide)
    have hentry : entryRank s.owners .handlerManager = 1 := by
      rw [howners]
      cases left <;> decide
    have hsame : entryRank (s.owners.erase (.entry .handlerManager)) .sessionManager
        = entryRank s.owners .sessionManager := by
      rw [howners]
      cases left <;> decide
    simp only [next, hlast, State.toExit, hpc, hd, hentry, hsame]
    omega
  · cases left with
    | true =>
        have hlast := release_sessionManager (s := s) (r := .entry .sessionManager) rfl
          (by rw [howners]; decide)
        refine ⟨.clear .sessionManager, ⟨hpc, hd, by rw [howners]; decide⟩, ?_⟩
        simp only [next, hlast, State.toExit, hpc, hd, howners]
        decide
    | false =>
        refine ⟨.exit, ⟨hpc, hd, fun o => by rw [howners]; cases o <;> decide⟩, ?_⟩
        simp only [next, State.toExit, hpc, hd]
        omega
  · refine ⟨.exit, ⟨hpc, hd, by rw [howners]; simp⟩, ?_⟩
    simp only [next, State.toExit, hpc, hd]
    omega

theorem progresses {s : State} (h : Sound s) (hpc : s.pc ≠ .exited) : Progresses s := by
  have hnone := h.no_destructor
  have hthreads := h.threads
  cases hplace : s.pc with
  | make o =>
      refine ⟨.make o, hplace, ?_⟩
      cases o <;> simp [next, State.toExit, hplace]
  | registry o =>
      refine ⟨.registry o, hplace, ?_⟩
      cases o with
      | sessionManager => simp [next, State.toExit, hplace]
      | handlerManager =>
          have hle : stopRank (s.executeQueue.pc (.owner ())) ≤ 5 := by
            cases s.executeQueue.pc (.owner ()) <;> simp [stopRank]
          simp only [next, State.toExit, hplace]
          omega
  | start =>
      rw [hplace, hnone (by simp [hplace])] at hthreads
      obtain ⟨hworker, howner | howner⟩ := hthreads
      · refine ⟨.executeQueue (.start ()), ⟨⟨howner, hworker⟩, hplace⟩, ?_⟩
        simp [next, State.returned, State.toExit, PacketExecuteQueue.next, hplace, howner, stopRank]
      · refine ⟨.executeQueue (.spawn ()), ⟨⟨howner, hworker⟩, hplace⟩, ?_⟩
        simp only [next, State.returned, State.toExit, hplace]
        omega
  | leave o =>
      have hd := hnone (by simp [hplace])
      refine ⟨.leave o, ⟨hplace, hd⟩, ?_⟩
      cases o with
      | handlerManager => simp [next, State.toExit, hplace]
      | sessionManager =>
          rw [leave_sessionManager h hplace hd]
          simp only [State.toExit, hplace, hd]
          decide
  | clear =>
      cases hd : s.destructor with
      | none => exact progresses_clear h hplace hd
      | some d =>
          cases d with
          | stop => exact progresses_stop h hd
          | executeQueue => exact progresses_executeQueue h hd
          | sessionManager =>
              obtain ⟨left, howners, hnext⟩ := destroyMember_eq h hd
              refine ⟨.destroyMember, hd, ?_⟩
              rw [hnext]
              simp only [State.toExit, hplace, hd, howners]
              cases left <;> decide
          | handlers =>
              refine ⟨.destroyHandlers, hd, ?_⟩
              rw [hplace, hd] at hthreads
              simp only [next, State.toExit, hplace, hd, hthreads.2, stopRank]
              omega
  | exited => exact absurd hplace hpc

/-! ### What holds in every run -/

/-- What is owned is there, and nothing is destroyed twice. -/
theorem Layout.kept {owners : Finset Owner} {destroyed : List Object} {p : Point}
    {d : Option Stage} (h : Layout owners destroyed p d) :
    (∀ r ∈ owners, r.object ∉ destroyed) ∧ destroyed.Nodup := by
  have hnone : destroyed = [] → (∀ r ∈ owners, r.object ∉ destroyed) ∧ destroyed.Nodup := by
    intro hnil
    simp [hnil]
  unfold Layout at h
  split at h
  case h_8 =>
    rcases h with ⟨left, rfl, hnil⟩ | ⟨left, rfl, rfl⟩ | ⟨rfl, rfl⟩
    · exact hnone hnil
    · cases left <;> decide
    · decide
  case h_9 | h_10 =>
    obtain ⟨left, -, hnil⟩ := h
    exact hnone hnil
  case h_11 | h_12 =>
    obtain ⟨left, rfl, rfl⟩ := h
    cases left <;> decide
  case h_13 =>
    rcases h with ⟨rfl, rfl | rfl⟩ <;> decide
  case h_14 => exact h.elim
  all_goals exact hnone h.2

/-- Where there is a thread there is everything it uses. -/
theorem Sound.alive {s : State} (h : Sound s) (hworker : s.executeQueue.pc .worker ≠ .idle) :
    s.destroyed = [] ∧ .member ∈ s.owners ∧
      (s.destructor = none ∨ s.destructor = some .stop) := by
  obtain ⟨-, hlayout, hthreads⟩ := h
  unfold Threads at hthreads
  split at hthreads
  case h_1 => exact absurd hthreads.1 hworker
  case h_2 o hpc hd =>
    rw [hpc, hd] at hlayout
    cases o with
    | sessionManager => exact ⟨hlayout.2, by rw [hlayout.1]; decide, .inl hd⟩
    | handlerManager => exact ⟨hlayout.2, by rw [hlayout.1]; decide, .inl hd⟩
  case h_3 hpc hd =>
    rw [hpc, hd] at hlayout
    have hentered := hthreads.1.mp hworker
    rcases hlayout with ⟨left, howners, hnil⟩ | ⟨left, howners, -⟩ | ⟨howners, -⟩
    · refine ⟨hnil, ?_, .inl hd⟩
      rw [howners]
      cases left <;> decide
    · rw [howners] at hentered
      cases left <;> exact absurd hentered (by decide)
    · rw [howners] at hentered
      exact absurd hentered (Finset.notMem_empty _)
  case h_4 hpc hd =>
    rw [hpc, hd] at hlayout
    obtain ⟨left, howners, hnil⟩ := hlayout
    refine ⟨hnil, ?_, .inr hd⟩
    rw [howners]
    exact Finset.mem_insert_self ..
  all_goals exact absurd hthreads.1 hworker

/-- **The program ends well.**  In every run, whatever the worker does and in whatever order the
registry is destroyed: an object that somebody owns is not destroyed, and none is destroyed twice;
as long as the worker's thread exists, finished or not, both objects are there and no member of the
handler manager has been destroyed; when `main` has returned both objects are destroyed and the
thread has been joined.  And from every state the program can be brought to that point. -/
theorem program_ends_well (tr : List (State × Action)) (s : State) (hr : program.Run tr s) :
    (∀ r ∈ s.owners, r.object ∉ s.destroyed) ∧ s.destroyed.Nodup ∧
    (s.executeQueue.pc .worker ≠ .idle →
      s.destroyed = [] ∧ .member ∈ s.owners ∧
        (s.destructor = none ∨ s.destructor = some .stop)) ∧
    (s.pc = .exited → s.owners = ∅ ∧ (∀ o, o ∈ s.destroyed) ∧
      s.executeQueue.pc .worker = .idle) ∧
    ∃ acts, program.Admits s acts ∧ (program.after s acts).pc = .exited := by
  have h := sound_of_run hr
  refine ⟨?_, ?_, ?_, ?_, ?_⟩
  · exact h.layout.kept.1
  · exact h.layout.kept.2
  · exact h.alive
  · intro hpc
    obtain ⟨-, hlayout, hthreads⟩ := h
    cases hd : s.destructor with
    | some d =>
        rw [hpc, hd] at hlayout
        exact hlayout.elim
    | none =>
        rw [hpc, hd] at hlayout hthreads
        obtain ⟨howners, hdestroyed⟩ := hlayout
        refine ⟨howners, ?_, hthreads.1⟩
        intro o
        rcases hdestroyed with hall | hall <;> rw [hall] <;> cases o <;> decide
  · obtain ⟨acts, hadm, -, hexit⟩ := reach_of_progress (M := program) (I := Sound)
      (G := fun s => s.pc = .exited) State.toExit
      (fun s hs hgoal => by
        obtain ⟨a, hen, hlt⟩ := progresses hs hgoal
        exact ⟨a, hen, sound_next s a hs hen, hlt⟩) s h
    exact ⟨acts, hadm, hexit⟩

/-- The registry lets go of the session manager first; `~HandlerManager` waits for the worker. -/
def stopping : List Action :=
  [.make .sessionManager, .registry .sessionManager, .make .handlerManager,
   .registry .handlerManager, .executeQueue (.start ()), .executeQueue (.spawn ()),
   .leave .handlerManager, .leave .sessionManager, .clear .sessionManager,
   .clear .handlerManager, .executeQueue (.stop ()), .executeQueue (.clear ())]

theorem program_ends_well_stopping :
    (program.after init stopping).destroyed = [] ∧
      .member ∈ (program.after init stopping).owners ∧
      ∃ acts, program.Admits (program.after init stopping) acts ∧
        (program.after (program.after init stopping) acts).pc = .exited := by
  have hadmits : program.Admits init stopping := by decide
  obtain ⟨-, -, halive, -, hexit⟩ := program_ends_well _ _ (run_of_admits hadmits)
  obtain ⟨hnil, hmember, -⟩ := halive (by decide)
  exact ⟨hnil, hmember, hexit⟩

end Main
