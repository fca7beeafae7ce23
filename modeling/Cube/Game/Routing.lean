/-
Where the packets go.

What a run has done is read off its trace (`log`): the calls of `Add` and `Remove` in the order in
which they changed the table, and for each lookup the packet, the session that by these calls is
the one to find, and the calls of handlers made before the next lookup.  The invariant `Tracked`
says how far the worker is with the last of the lookups.  All others are settled: a handler was
called once, the one under the packet's id with the session found, or none was called because one
of the two is missing.
-/
import Cube.Game.HandlerManager

namespace Game.HandlerManager

open Library System Core Protocol
open Core.SessionManager (latest tableAfter)
open Core.PacketExecuteQueue (Packet held inCall)

variable {π τ H : Type}

/-! ### The log of a run -/

/-- A packet that was looked up, the session then registered under its id, and the calls made. -/
structure Served (H : Type) where
  item : PacketItem
  session : Option Session
  invoked : List (Invocation H)
  deriving DecidableEq

structure Log (H : Type) where
  history : List Call              -- the calls of `Add` and `Remove` that took effect
  served : List (Served H)

/-- The call is noted with the last packet. -/
def recordCall (inv : Invocation H) : List (Served H) → List (Served H)
  | [] => []
  | [r] => [{ r with invoked := r.invoked ++ [inv] }]
  | r :: r' :: rest => r :: recordCall inv (r' :: rest)

/-- By these calls of `Add` and `Remove`, the session under an id: that of the last call for this
id, if it was an `Add`. -/
def lastAdded (history : List Call) (id : UInt64) : Option Session :=
  (latest history id).bind SessionManager.Call.left

/-- What an action adds to the log. -/
def Log.observe (l : Log H) : Action π τ H → Log H
  | .apply _ c => { l with history := l.history ++ [c] }
  | .find item => { l with served := l.served ++ [⟨item, lastAdded l.history item.sessionId, []⟩] }
  | .call _ inv => { l with served := recordCall inv l.served }
  | _ => l

/-- The log of a trace. -/
def log [DecidableEq π] (tr : List (State π τ H × Action π τ H)) : Log H :=
  tr.foldl (fun l e => l.observe e.2) ⟨[], []⟩

theorem log_concat [DecidableEq π] (tr : List (State π τ H × Action π τ H)) (s : State π τ H)
    (a : Action π τ H) : log (tr ++ [(s, a)]) = (log tr).observe a := by
  simp [log]

theorem recordCall_concat (inv : Invocation H) (done : List (Served H)) (r : Served H) :
    recordCall inv (done ++ [r]) = done ++ [{ r with invoked := r.invoked ++ [inv] }] := by
  induction done with
  | nil => rfl
  | cons r₁ done ih =>
      cases done with
      | nil => rfl
      | cons r₂ rest => exact congrArg (r₁ :: ·) ih

/-! ### Settled packets -/

/-- The packet went where it should: one call of the handler under its id, with the session found
and its own payload, or no call if there is no such session or no such handler. -/
structure Answers (handlers : HandlerTable H) (e : Packet π) (r : Served H) : Prop where
  item : r.item = e.value
  routed : ∀ session handler, r.session = some session →
    handlers.lookup e.value.packetId.value = some handler →
      r.invoked = [⟨handler, session, e.value.payload, e.value.payloadSize⟩]
  dropped : r.session = none ∨ handlers.lookup e.value.packetId.value = none → r.invoked = []

/-- `ProcessPacket` makes no call: the packet is settled. -/
theorem answers_of_none {handlers : HandlerTable H} {e : Packet π} {session : Option Session}
    (h : processPacket handlers e.value session = none) :
    Answers handlers e ⟨e.value, session, []⟩ := by
  refine ⟨rfl, ?_, fun _ => rfl⟩
  intro session' handler hsession hhandler
  subst hsession
  simp [processPacket, hhandler] at h

/-- It makes a call: the packet is settled when the call is made. -/
theorem answers_of_some {handlers : HandlerTable H} {e : Packet π} {session : Option Session}
    {inv : Invocation H} (h : processPacket handlers e.value session = some inv) :
    Answers handlers e ⟨e.value, session, [inv]⟩ := by
  cases session with
  | none => cases h
  | some session =>
      unfold processPacket at h
      cases hlookup : handlers.lookup e.value.packetId.value with
      | none => simp [hlookup] at h
      | some handler =>
          simp only [hlookup, Option.some.injEq] at h
          refine ⟨rfl, ?_, ?_⟩
          · intro session' handler' hsession hlookup'
            obtain rfl := Option.some.inj hsession
            obtain rfl := Option.some.inj (hlookup.symm.trans hlookup')
            rw [h]
          · intro hmissing
            rcases hmissing with hnone | hnone
            · cases hnone
            · cases hlookup.symm.trans hnone

theorem answered_concat {handlers : HandlerTable H} {calls returns : List (Packet π)}
    {done : List (Served H)} {e : Packet π} {r : Served H} (hcalls : calls = returns ++ [e])
    (hall : List.Forall₂ (Answers handlers) returns done) (hr : Answers handlers e r) :
    List.Forall₂ (Answers handlers) calls (done ++ [r]) := by
  rw [hcalls]
  exact List.rel_append hall (.cons hr .nil)

/-! ### How far the worker is -/

/-- Packets handed to the processor, calls of the processor finished, and packets looked up, with
the worker at this point. -/
def Follows (handlers : HandlerTable H) (calls returns : List (Packet π))
    (served : List (Served H)) : Point H → Prop
  | .outside => calls = returns ∧ List.Forall₂ (Answers handlers) returns served
  | .findLock item | .find item =>
      ∃ e, calls = returns ++ [e] ∧ e.value = item ∧
        List.Forall₂ (Answers handlers) returns served
  | .findUnlock item session | .route item session =>
      ∃ e done, calls = returns ++ [e] ∧ e.value = item ∧
        List.Forall₂ (Answers handlers) returns done ∧ served = done ++ [⟨item, session, []⟩]
  | .call item inv =>
      ∃ e done session, calls = returns ++ [e] ∧ e.value = item ∧
        List.Forall₂ (Answers handlers) returns done ∧ served = done ++ [⟨item, session, []⟩] ∧
        processPacket handlers item session = some inv
  | .handling item | .returned item =>
      ∃ e, calls = returns ++ [e] ∧ e.value = item ∧
        List.Forall₂ (Answers handlers) calls served
  | .lock _ | .apply _ | .unlock => False

section Queue

variable [DecidableEq π]

/-- What holds of a state and the log of the run that led there. -/
structure Tracked (table : HandlerTable H) (l : Log H) (s : State π τ H) : Prop where
  balanced : s.executeQueue.Balanced
  processor : s.executeQueue.hasProcessor = true
  handlers : s.handlers = table
  sessions : s.sessions = tableAfter Sessions.empty l.history
  packets : Follows table s.executeQueue.calls s.executeQueue.returns l.served (s.pc .worker)

/-! ### The queue's steps -/

theorem queue_frame (s : PacketExecuteQueue.State π Unit) {a : PacketExecuteQueue.Action π Unit}
    (ha : Passive a) :
    (PacketExecuteQueue.next s a).calls = s.calls ∧
      (PacketExecuteQueue.next s a).returns = s.returns ∧
      (PacketExecuteQueue.next s a).hasProcessor = s.hasProcessor := by
  cases a with
  | setProcessor o nonEmpty => exact absurd ha id
  | invoke e => exact absurd ha id
  | finish e outcome => exact absurd ha id
  | predRunning | predPending | testRunning | testPending | hasPending =>
      simp only [PacketExecuteQueue.next]
      split <;> exact ⟨rfl, rfl, rfl⟩
  | _ => simp [PacketExecuteQueue.next]

variable {table : HandlerTable H} {l : Log H} {s : State π τ H}

theorem Tracked.balanced_next (h : Tracked table l s) {a : PacketExecuteQueue.Action π Unit}
    (hen : PacketExecuteQueue.Enabled s.executeQueue a) :
    (PacketExecuteQueue.next s.executeQueue a).Balanced :=
  PacketExecuteQueue.balanced_next s.executeQueue a h.balanced hen fun _ => h.processor

theorem Tracked.packets_at (h : Tracked table l s) {f : Point H} (hpc : s.pc .worker = f) :
    Follows table s.executeQueue.calls s.executeQueue.returns l.served f := hpc ▸ h.packets

/-- While the queue's worker is in no call of the processor, it is not in `ProcessPacket` either,
and all packets are answered. -/
theorem Tracked.idle (h : Tracked table l s)
    (hidle : s.executeQueue.calls = s.executeQueue.returns) :
    s.pc .worker = .outside ∧
      List.Forall₂ (Answers table) s.executeQueue.returns l.served := by
  cases hpc : s.pc .worker with
  | outside => exact ⟨rfl, (h.packets_at hpc).2⟩
  | lock c | apply c | unlock => exact absurd (h.packets_at hpc) id
  | findLock item | find item | handling item | returned item =>
      obtain ⟨e, hcalls, _⟩ := h.packets_at hpc
      simp [hidle] at hcalls
  | findUnlock item session | route item session =>
      obtain ⟨e, done, hcalls, _⟩ := h.packets_at hpc
      simp [hidle] at hcalls
  | call item inv =>
      obtain ⟨e, done, session, hcalls, _⟩ := h.packets_at hpc
      simp [hidle] at hcalls

theorem Tracked.idle_of_invoke (h : Tracked table l s) {e : Packet π}
    (hpc : s.executeQueue.pc .worker = .invoke e) :
    s.executeQueue.calls = s.executeQueue.returns := by
  simpa [hpc, inCall] using h.balanced.completed

variable [DecidableEq τ]

/-- A step of `ProcessPacket` leaves the queue alone: what is left to show. -/
theorem Tracked.worker {l' : Log H} {s' : State π τ H} {f : Point H}
    (h : Tracked table l s) (hqueue : s'.executeQueue = s.executeQueue)
    (hhandlers : s'.handlers = s.handlers)
    (hsessions : s'.sessions = tableAfter Sessions.empty l'.history)
    (hpc : s'.pc = Function.update s.pc .worker f)
    (hpackets : Follows table s.executeQueue.calls s.executeQueue.returns l'.served f) :
    Tracked table l' s' where
  balanced := hqueue ▸ h.balanced
  processor := hqueue ▸ h.processor
  handlers := hhandlers.trans h.handlers
  sessions := hsessions
  packets := by
    rw [hqueue, hpc, Function.update_self]
    exact hpackets

/-- A step of `Add` or `Remove` leaves the worker and the packets alone as well. -/
theorem Tracked.thread {l' : Log H} {s' : State π τ H} {t : τ} {f : Point H}
    (h : Tracked table l s) (hqueue : s'.executeQueue = s.executeQueue)
    (hhandlers : s'.handlers = s.handlers)
    (hsessions : s'.sessions = tableAfter Sessions.empty l'.history)
    (hserved : l'.served = l.served) (hpc : s'.pc = Function.update s.pc (.thread t) f) :
    Tracked table l' s' where
  balanced := hqueue ▸ h.balanced
  processor := hqueue ▸ h.processor
  handlers := hhandlers.trans h.handlers
  sessions := hsessions
  packets := by
    have hother : Party.worker ≠ .thread t := by simp
    rw [hqueue, hserved, hpc, Function.update_of_ne hother]
    exact h.packets

/-- The worker calls the processor. -/
theorem tracked_invoke (h : Tracked table l s) {e : Packet π}
    (hen : Enabled s (.executeQueue (.invoke e))) :
    Tracked table l (next s (.executeQueue (.invoke e))) := by
  have hpc : s.executeQueue.pc .worker = .invoke e := hen.1
  have hnext : PacketExecuteQueue.next s.executeQueue (.invoke e)
      = { s.executeQueue.goto .worker (.calling e) with
          calls := s.executeQueue.calls ++ [e] } := if_pos h.processor
  have hidle := h.idle_of_invoke hpc
  refine ⟨h.balanced_next hen.1, ?_, h.handlers, h.sessions, ?_⟩
  · show (PacketExecuteQueue.next s.executeQueue (.invoke e)).hasProcessor = true
    rw [hnext]
    exact h.processor
  · show Follows table (PacketExecuteQueue.next s.executeQueue (.invoke e)).calls
      (PacketExecuteQueue.next s.executeQueue (.invoke e)).returns l.served
      (Function.update s.pc .worker (.findLock e.value) .worker)
    rw [hnext, Function.update_self]
    exact ⟨e, congrArg (· ++ [e]) hidle, rfl, (h.idle hidle).2⟩

/-- The call of the processor ends, in whatever way. -/
theorem tracked_finish (h : Tracked table l s) {e : Packet π}
    {outcome : PacketExecuteQueue.Outcome}
    (hen : Enabled s (.executeQueue (.finish e outcome))) :
    Tracked table l (next s (.executeQueue (.finish e outcome))) := by
  have hpc : s.executeQueue.pc .worker = .calling e := hen.1
  have hcalls : s.executeQueue.calls = s.executeQueue.returns ++ [e] := by
    simpa [hpc, inCall] using h.balanced.completed
  have hall : List.Forall₂ (Answers table) s.executeQueue.calls l.served := by
    rcases hen.2 with hpoint | ⟨hpoint, _⟩
    · obtain ⟨_, _, _, hall⟩ := h.packets_at hpoint
      exact hall
    · obtain ⟨_, _, _, hall⟩ := h.packets_at hpoint
      exact hall
  refine ⟨h.balanced_next hen.1, h.processor, h.handlers, h.sessions, ?_⟩
  show Follows table s.executeQueue.calls (s.executeQueue.returns ++ [e]) l.served
    (Function.update s.pc .worker .outside .worker)
  rw [Function.update_self]
  exact ⟨hcalls, hcalls ▸ hall⟩

theorem tracked_passive (h : Tracked table l s) {a : PacketExecuteQueue.Action π Unit}
    (ha : Passive a) (hen : Enabled s (.executeQueue a)) :
    Tracked table l (next s (.executeQueue a)) := by
  obtain ⟨hcalls, hreturns, hprocessor⟩ := queue_frame s.executeQueue ha
  have hsame := process_passive s ha
  refine ⟨h.balanced_next hen.1, hprocessor.trans h.processor, ?_, ?_, ?_⟩
  · show (s.process a).handlers = table
    rw [hsame]
    exact h.handlers
  · show (s.process a).sessions = _
    rw [hsame]
    exact h.sessions
  · show Follows table (PacketExecuteQueue.next s.executeQueue a).calls
      (PacketExecuteQueue.next s.executeQueue a).returns l.served ((s.process a).pc .worker)
    rw [hsame, hcalls, hreturns]
    exact h.packets

/-- One step of the queue's own threads. -/
theorem tracked_executeQueue (h : Tracked table l s) {a : PacketExecuteQueue.Action π Unit}
    (hen : Enabled s (.executeQueue a)) : Tracked table l (next s (.executeQueue a)) := by
  cases a with
  | setProcessor o nonEmpty => exact absurd hen.2 id
  | invoke e => exact tracked_invoke h hen
  | finish e outcome => exact tracked_finish h hen
  | _ => exact tracked_passive h trivial hen

/-! ### The steps on the session table and of `ProcessPacket` -/

/-- The lookup finds the session that the calls so far have left under the id. -/
theorem tracked_find (h : Tracked table l s) {item : PacketItem}
    (hpc : s.pc .worker = .find item) :
    Tracked table (l.observe (.find item : Action π τ H)) (next s (.find item)) := by
  obtain ⟨e, hcalls, hitem, hall⟩ := h.packets_at hpc
  have hfound : s.sessions.find item.sessionId = lastAdded l.history item.sessionId := by
    rw [h.sessions, SessionManager.find_tableAfter]
    rfl
  refine h.worker rfl rfl h.sessions rfl ?_
  rw [hfound]
  exact ⟨e, l.served, hcalls, hitem, hall, rfl⟩

/-- The two tests after the lookup. -/
theorem tracked_route (h : Tracked table l s) {item : PacketItem} {session : Option Session}
    (hpc : s.pc .worker = .route item session) :
    Tracked table l (next s (.route item session)) := by
  obtain ⟨e, done, hcalls, rfl, hall, hserved⟩ := h.packets_at hpc
  simp only [next, h.handlers]
  cases hprocess : processPacket table e.value session with
  | some inv =>
      refine h.worker rfl rfl h.sessions rfl ?_
      exact ⟨e, done, session, hcalls, rfl, hall, hserved, hprocess⟩
  | none =>
      refine h.worker rfl rfl h.sessions rfl ⟨e, hcalls, rfl, ?_⟩
      rw [hserved]
      exact answered_concat hcalls hall (answers_of_none hprocess)

/-- The handler is called. -/
theorem tracked_call (h : Tracked table l s) {item : PacketItem} {inv : Invocation H}
    (hpc : s.pc .worker = .call item inv) :
    Tracked table (l.observe (.call item inv : Action π τ H)) (next s (.call item inv)) := by
  obtain ⟨e, done, session, hcalls, rfl, hall, hserved, hprocess⟩ := h.packets_at hpc
  refine h.worker rfl rfl h.sessions rfl ⟨e, hcalls, rfl, ?_⟩
  show List.Forall₂ _ _ (recordCall inv l.served)
  rw [hserved, recordCall_concat]
  exact answered_concat hcalls hall (answers_of_some hprocess)

theorem tracked_next (h : Tracked table l s) {a : Action π τ H} (hen : Enabled s a) :
    Tracked table (l.observe a) (next s a) := by
  cases a with
  | executeQueue a => exact tracked_executeQueue h hen
  | begin t c | lock t c | unlock t => exact h.thread rfl rfl h.sessions rfl rfl
  | apply t c =>
      refine h.thread rfl rfl ?_ rfl rfl
      show c.apply s.sessions = tableAfter Sessions.empty (l.history ++ [c])
      rw [h.sessions]
      exact (List.foldl_concat ..).symm
  | findLock item =>
      have hpackets := h.packets_at hen.1
      exact h.worker rfl rfl h.sessions rfl hpackets
  | find item => exact tracked_find h hen
  | findUnlock item session =>
      have hpc : s.pc .worker = .findUnlock item session := hen
      have hpackets := h.packets_at hpc
      exact h.worker rfl rfl h.sessions rfl hpackets
  | route item session => exact tracked_route h hen
  | call item inv => exact tracked_call h hen

theorem tracked_of_run {tr : List (State π τ H × Action π τ H)}
    (hr : (handlerManager π τ table).Run tr s) : Tracked table (log tr) s := by
  induction hr with
  | nil =>
      refine ⟨⟨rfl, rfl⟩, rfl, rfl, rfl, ?_⟩
      exact ⟨rfl, .nil⟩
  | @step tr s a _ hen ih =>
      rw [log_concat]
      exact tracked_next ih hen

end Queue

/-! ### The mutex -/

/-- A step of the queue's threads does not cross the border of the mutex. -/
theorem locked_process [DecidableEq π] [DecidableEq τ] {table : HandlerTable H} {l : Log H}
    {s : State π τ H} (h : Locked Inside s.pc s.mutex) (htracked : Tracked table l s)
    {a : PacketExecuteQueue.Action π Unit} (hen : Enabled s (.executeQueue a)) :
    Locked Inside (s.process a).pc s.mutex := by
  cases a with
  | invoke e =>
      have hpc := (htracked.idle (htracked.idle_of_invoke hen.1)).1
      exact h.move (by simp [hpc, Inside])
  | finish e outcome =>
      rcases hen.2 with hpc | ⟨hpc, _⟩
      · exact h.move (by simp [hpc, Inside])
      · exact h.move (by simp [hpc, Inside])
  | _ => exact h

theorem locked_next [DecidableEq π] [DecidableEq τ] {table : HandlerTable H} {l : Log H}
    {s : State π τ H} (h : Locked Inside s.pc s.mutex) (htracked : Tracked table l s)
    {a : Action π τ H} (hen : Enabled s a) : Locked Inside (next s a).pc (next s a).mutex := by
  cases a with
  | executeQueue a =>
      have hprocess := locked_process h htracked hen
      have hmutex : (s.process a).mutex = s.mutex := by cases a <;> rfl
      rw [← hmutex] at hprocess
      exact hprocess
  | begin t c =>
      have hpc : s.pc (.thread t) = .outside := hen
      exact h.move (by simp [hpc, Inside])
  | lock t c =>
      obtain ⟨_, hfree⟩ := hen
      rw [hfree] at h
      exact h.acquire trivial
  | apply t c =>
      have hpc : s.pc (.thread t) = .apply c := hen
      exact h.move (by simp [hpc, Inside])
  | unlock t =>
      have hpc : s.pc (.thread t) = .unlock := hen
      exact h.release (by simp [hpc, Inside]) (by simp [Inside])
  | findLock item =>
      obtain ⟨_, hfree⟩ := hen
      rw [hfree] at h
      exact h.acquire trivial
  | find item =>
      have hpc : s.pc .worker = .find item := hen
      exact h.move (by simp [hpc, Inside])
  | findUnlock item session =>
      have hpc : s.pc .worker = .findUnlock item session := hen
      exact h.release (by simp [hpc, Inside]) (by simp [Inside])
  | route item session =>
      have hpc : s.pc .worker = .route item session := hen
      simp only [next]
      split <;> exact h.move (by simp [hpc, Inside])
  | call item inv =>
      have hpc : s.pc .worker = .call item inv := hen
      exact h.move (by simp [hpc, Inside])

/-- The mutex of the session manager is held by whoever works on its table. -/
theorem locked_of_run [DecidableEq π] [DecidableEq τ] {table : HandlerTable H}
    {tr : List (State π τ H × Action π τ H)} {s : State π τ H}
    (hr : (handlerManager π τ table).Run tr s) : Locked Inside s.pc s.mutex := by
  induction hr with
  | nil =>
      intro p
      simp [handlerManager, init, Inside]
  | @step tr s a hrun hen ih => exact locked_next ih (tracked_of_run hrun) hen

/-! ### Every packet -/

section Routing

variable [DecidableEq π]

/-- The steps of the queue's threads and of `ProcessPacket`. -/
def Action.OfProcessing : Action π τ H → Prop
  | .begin _ _ | .lock _ _ | .apply _ _ | .unlock _ => False
  | _ => True

/-- What a run has done with its packets.  Every packet taken off the queue is handed to the
processor.  Every packet the processor is done with was looked up once and is settled.  At most one
more packet was looked up, the one the processor is working on, and if a handler was called for it,
then it is settled too.  The tables are what the constructor and the calls of `Add` and `Remove`
have made them. -/
structure Routed (table : HandlerTable H) (l : Log H) (s : State π τ H) : Prop where
  taken : s.executeQueue.queue.dequeued
    = s.executeQueue.calls ++ held (s.executeQueue.pc .worker)
  answered : ∃ done current, l.served = done ++ current ∧
    List.Forall₂ (Answers table) s.executeQueue.returns done ∧
      (current = [] ∨ ∃ e r, s.executeQueue.calls = s.executeQueue.returns ++ [e] ∧
        current = [r] ∧ r.item = e.value ∧ (r.invoked = [] ∨ Answers table e r))
  handlers : s.handlers = table
  sessions : s.sessions = tableAfter Sessions.empty l.history

theorem forall₂_mem {α β : Type} {R : α → β → Prop} {l : List α} {m : List β} {a : α}
    (h : List.Forall₂ R l m) (ha : a ∈ l) : ∃ b ∈ m, R a b := by
  induction h with
  | nil => exact absurd ha List.not_mem_nil
  | cons hab _ ih =>
      rcases List.mem_cons.mp ha with rfl | hrest
      · exact ⟨_, List.mem_cons_self, hab⟩
      · obtain ⟨b, hb, hR⟩ := ih hrest
        exact ⟨b, List.mem_cons_of_mem _ hb, hR⟩

private theorem forall₂_concat {α β : Type} {R : α → β → Prop} {l : List α} {a : α} :
    ∀ {m : List β}, List.Forall₂ R (l ++ [a]) m →
      ∃ m' b, m = m' ++ [b] ∧ List.Forall₂ R l m' ∧ R a b := by
  induction l with
  | nil =>
      intro m h
      obtain ⟨b, m', hab, hnil, rfl⟩ := List.forall₂_cons_left_iff.mp h
      cases hnil
      exact ⟨[], b, rfl, .nil, hab⟩
  | cons x l ih =>
      intro m h
      obtain ⟨y, m', hxy, hrest, rfl⟩ := List.forall₂_cons_left_iff.mp h
      obtain ⟨m₁, b, rfl, hall, hab⟩ := ih hrest
      exact ⟨y :: m₁, b, rfl, .cons hxy hall, hab⟩

theorem Tracked.routed {table : HandlerTable H} {l : Log H} {s : State π τ H}
    (h : Tracked table l s) : Routed table l s := by
  refine ⟨h.balanced.handed, ?_, h.handlers, h.sessions⟩
  cases hpc : s.pc .worker with
  | outside => exact ⟨l.served, [], (List.append_nil _).symm, (h.packets_at hpc).2, Or.inl rfl⟩
  | lock c | apply c | unlock => exact absurd (h.packets_at hpc) id
  | findLock item | find item =>
      obtain ⟨_, _, _, hall⟩ := h.packets_at hpc
      exact ⟨l.served, [], (List.append_nil _).symm, hall, Or.inl rfl⟩
  | findUnlock item session | route item session =>
      obtain ⟨e, done, hcalls, hitem, hall, hserved⟩ := h.packets_at hpc
      exact ⟨done, _, hserved, hall, Or.inr ⟨e, _, hcalls, rfl, hitem.symm, Or.inl rfl⟩⟩
  | call item inv =>
      obtain ⟨e, done, session, hcalls, hitem, hall, hserved, _⟩ := h.packets_at hpc
      exact ⟨done, _, hserved, hall, Or.inr ⟨e, _, hcalls, rfl, hitem.symm, Or.inl rfl⟩⟩
  | handling item | returned item =>
      obtain ⟨e, hcalls, hitem, hall⟩ := h.packets_at hpc
      rw [hcalls] at hall
      obtain ⟨done, r, hserved, hdone, hr⟩ := forall₂_concat hall
      exact ⟨done, [r], hserved, hdone, Or.inr ⟨e, r, hcalls, rfl, hr.item, Or.inr hr⟩⟩

variable [DecidableEq τ]

/-- **Every packet goes where it should.**  In every run, whatever threads add and remove sessions
meanwhile.  `ProcessPacket` changes neither table, and whether the handler returned or threw makes
no difference to what follows. -/
theorem packets_routed (table : HandlerTable H) {tr : List (State π τ H × Action π τ H)}
    {s : State π τ H} (hr : (handlerManager π τ table).Run tr s) :
    Routed table (log tr) s ∧
      (∀ a : Action π τ H, a.OfProcessing →
        (next s a).sessions = s.sessions ∧ (next s a).handlers = s.handlers) ∧
      ∀ (e : Packet π) (outcome : PacketExecuteQueue.Outcome),
        next s (.executeQueue (.finish e outcome)) = next s (.executeQueue (.finish e .returned)) ∧
        (s.pc .worker = .handling e.value → Enabled s (.executeQueue (.finish e .returned)) →
          Enabled s (.executeQueue (.finish e outcome))) := by
  refine ⟨(tracked_of_run hr).routed, ?_, ?_⟩
  · intro a ha
    cases a with
    | executeQueue a =>
        refine ⟨?_, ?_⟩
        · show (s.process a).sessions = s.sessions
          cases a <;> rfl
        · show (s.process a).handlers = s.handlers
          cases a <;> rfl
    | route item session =>
        simp only [next]
        split <;> exact ⟨rfl, rfl⟩
    | begin t c | lock t c | apply t c | unlock t => exact absurd ha id
    | _ => exact ⟨rfl, rfl⟩
  · intro e outcome
    exact ⟨rfl, fun hpc hen => ⟨hen.1, Or.inl hpc⟩⟩

/-- A session is added, its packet is taken and looked up, the session is removed, and then the
handler is called and throws. -/
def removedMeanwhile : List (Action Unit Unit Unit) :=
  let item : PacketItem := ⟨.REQ_ECHO, 7, [1, 2], 2⟩
  let session : Session := ⟨1, 7⟩
  [.begin () (.add session), .lock () (.add session), .apply () (.add session), .unlock (),
    .executeQueue (.enqueue () item), .executeQueue (.start ()), .executeQueue (.spawn ()),
    .executeQueue .lock, .executeQueue .predRunning, .executeQueue .predPending,
    .executeQueue .testRunning, .executeQueue .unlock, .executeQueue .hasPending,
    .executeQueue (.tryDequeue ⟨(), 0, item⟩), .executeQueue (.invoke ⟨(), 0, item⟩),
    .findLock item, .find item, .findUnlock item (some session),
    .begin () (.remove session), .lock () (.remove session), .apply () (.remove session),
    .unlock (), .route item (some session), .call item ⟨(), session, [1, 2], 2⟩,
    .executeQueue (.finish ⟨(), 0, item⟩ .exception)]

/-- The handler got the session that was found. -/
theorem packets_routed_removed :
    let system := handlerManager Unit Unit (registerAllHandlers ())
    let trace := system.trace system.init removedMeanwhile
    Routed (registerAllHandlers ()) (log trace) (system.after system.init removedMeanwhile) ∧
      (log trace).served
        = [⟨⟨.REQ_ECHO, 7, [1, 2], 2⟩, some ⟨1, 7⟩, [⟨(), ⟨1, 7⟩, [1, 2], 2⟩]⟩] := by
  refine ⟨(packets_routed (registerAllHandlers ()) (run_of_admits ?_)).1, ?_⟩
  · decide
  · decide

end Routing

end Game.HandlerManager
