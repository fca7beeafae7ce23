/-
From the push of a request to its echo.

A packet is pushed, the worker takes it, `ProcessPacket` looks its session up and calls the handler
under its id, and `Stop` does not return before that has happened.  `callsFor` reads the calls that
were made for one packet off the trace of a run, and `Handled` says at each point of the worker what
they are.  It holds from the push on, as long as nobody adds or removes the session of the packet.
-/
import Cube.Core.Dispatcher.ExactlyOnce
import Cube.Game.EchoSafety
import Cube.Game.Stopping

namespace Game.HandlerManager

open Library System Core Protocol
open Core.PacketExecuteQueue (Packet inCall)

variable {π τ H : Type}

/-! ### The calls for one packet -/

/-- If a call of `Add` or `Remove` takes effect, then for another id. -/
def Action.Spares (id : UInt64) : Action π τ H → Prop
  | .apply _ c => c.session.sessionId ≠ id
  | _ => True

/-- The last step of a call of `Stop`. -/
def Action.Returns : Action π τ H → Prop
  | .executeQueue a => PacketExecuteQueue.Returns a
  | _ => False

variable [DecidableEq π]

/-- The call of a handler in this step, if it is made for this packet. -/
def callFor (e : Packet π) : State π τ H × Action π τ H → Option (Invocation H)
  | (s, .call _ inv) => if s.executeQueue.pc .worker = .calling e then some inv else none
  | _ => none

/-- The calls of handlers that a run made while the worker was at this packet. -/
def callsFor (e : Packet π) (tr : List (State π τ H × Action π τ H)) : List (Invocation H) :=
  tr.filterMap (callFor e)

theorem callsFor_concat (e : Packet π) (tr : List (State π τ H × Action π τ H))
    (x : State π τ H × Action π τ H) :
    callsFor e (tr ++ [x]) = callsFor e tr ++ (callFor e x).toList := by
  unfold callsFor
  rw [List.filterMap_append]
  cases hcall : callFor e x <;> simp [hcall]

/-- What they are, with the worker at this point of `ProcessPacket` for the packet. -/
def Stage (table : HandlerTable H) (item : PacketItem) (found : Option Session)
    (made : List (Invocation H)) : Point H → Prop
  | .findLock _ | .find _ => made = []
  | .findUnlock _ session | .route _ session => made = [] ∧ session = found
  | .call _ inv => made = [] ∧ processPacket table item found = some inv
  | .handling _ | .returned _ => made = (processPacket table item found).toList
  | .outside | .lock _ | .apply _ | .unlock => False

/-- The calls `made` for the packet, whose session is `found` all the time. -/
structure Handled (table : HandlerTable H) (found : Option Session) (e : Packet π)
    (made : List (Invocation H)) (s : State π τ H) : Prop where
  session : s.sessions.find e.value.sessionId = found
  before : e ∉ s.executeQueue.calls → made = []
  during : s.executeQueue.pc .worker = .calling e → Stage table e.value found made (s.pc .worker)
  after : e ∈ s.executeQueue.returns → made = (processPacket table e.value found).toList

/-! ### One step -/

/-- A packet the processor is working on was handed to it, and it is not done with it. -/
theorem Sound.at_packet {s : State π τ H} (h : Sound s) {e : Packet π}
    (hpc : s.executeQueue.pc .worker = .calling e) :
    e ∈ s.executeQueue.calls ∧ e ∉ s.executeQueue.returns := by
  have hcalls : s.executeQueue.calls = s.executeQueue.returns ++ [e] := by
    simpa [hpc, inCall] using h.balanced.completed
  have honce := h.balanced.accounted.once
  rw [hcalls] at honce ⊢
  refine ⟨List.mem_append_right _ List.mem_cons_self, ?_⟩
  intro hmem
  exact (List.nodup_append.mp honce).2.2 e hmem e List.mem_cons_self rfl

/-- Only `invoke` begins a call of the processor. -/
theorem calling_of_passive {q : PacketExecuteQueue.State π Unit}
    {a : PacketExecuteQueue.Action π Unit} (ha : Passive a) {e : Packet π}
    (hpc : (PacketExecuteQueue.next q a).pc .worker = .calling e) :
    q.pc .worker = .calling e := by
  have hnotify : q.notify.pc .worker = .calling e → q.pc .worker = .calling e := by
    intro h
    rcases PacketExecuteQueue.notify_cases q with ⟨-, heq⟩ | ⟨-, heq⟩
    · simp [heq] at h
    · rwa [heq] at h
  cases a with
  | setProcessor o nonEmpty | invoke e' | finish e' outcome => exact ha.elim
  | predRunning | predPending | testRunning | testPending | hasPending =>
      simp only [PacketExecuteQueue.next] at hpc
      split at hpc <;> simp at hpc
  | notifyOne i | notifyAll o => exact hnotify (by simpa [PacketExecuteQueue.next] using hpc)
  | enqueue i item | start o | stop o | clear o | endLock o | joinable o | notJoinable o =>
      simpa [PacketExecuteQueue.next] using hpc
  | _ => simp [PacketExecuteQueue.next] at hpc

variable {table : HandlerTable H} {found : Option Session} {e : Packet π}
  {made : List (Invocation H)}

/-- A step of `ProcessPacket`: what is left to show concerns only the packet it was called with. -/
theorem Handled.process {s s' : State π τ H} (h : Handled table found e made s) (hs : Sound s)
    {made' : List (Invocation H)} {item : PacketItem} (hitem : (s.pc .worker).item = some item)
    (hqueue : s'.executeQueue = s.executeQueue) (hsessions : s'.sessions = s.sessions)
    (hother : s.executeQueue.pc .worker ≠ .calling e → made' = made)
    (hstage : item = e.value → Stage table e.value found made (s.pc .worker) →
      s.executeQueue.pc .worker = .calling e → Stage table e.value found made' (s'.pc .worker)) :
    Handled table found e made' s' where
  session := hsessions ▸ h.session
  before := by
    rw [hqueue]
    intro he
    rw [hother fun hpc => he (hs.at_packet hpc).1]
    exact h.before he
  during := by
    rw [hqueue]
    intro hpc
    have hprocesses := hs.processes
    rw [hpc] at hprocesses
    exact hstage (Option.some.inj (hitem.symm.trans hprocesses)) (h.during hpc) hpc
  after := by
    rw [hqueue]
    intro he
    rw [hother fun hpc => (hs.at_packet hpc).2 he]
    exact h.after he

/-- A step of `Add` or `Remove` for another id. -/
theorem Handled.thread {s s' : State π τ H} (h : Handled table found e made s)
    (hqueue : s'.executeQueue = s.executeQueue) (hpc : s'.pc .worker = s.pc .worker)
    (hsession : s'.sessions.find e.value.sessionId = s.sessions.find e.value.sessionId) :
    Handled table found e made s' where
  session := hsession.trans h.session
  before := hqueue ▸ h.before
  during := by
    rw [hqueue, hpc]
    exact h.during
  after := hqueue ▸ h.after

variable [DecidableEq τ]

section

variable {s : State π τ H}

/-- The worker calls the processor, for this packet or another. -/
theorem Handled.invoke (h : Handled table found e made s) (hs : Sound s) {e' : Packet π}
    (hen : Enabled s (.executeQueue (.invoke e'))) :
    Handled table found e made (next s (.executeQueue (.invoke e'))) := by
  have hnext : PacketExecuteQueue.next s.executeQueue (.invoke e')
      = { s.executeQueue.goto .worker (.calling e') with
          calls := s.executeQueue.calls ++ [e'] } := if_pos hs.processor
  have hbalanced := PacketExecuteQueue.balanced_next s.executeQueue (.invoke e') hs.balanced hen.1
    fun _ => hs.processor
  have honce := hbalanced.accounted.once
  rw [hnext] at honce
  refine ⟨h.session, ?_, ?_, ?_⟩
  · show e ∉ (PacketExecuteQueue.next s.executeQueue (.invoke e')).calls → _
    rw [hnext]
    exact fun he => h.before fun hmem => he (List.mem_append_left _ hmem)
  · show (PacketExecuteQueue.next s.executeQueue (.invoke e')).pc .worker = .calling e →
      Stage _ _ _ _ (Function.update s.pc .worker (.findLock e'.value) .worker)
    rw [hnext, Function.update_self]
    intro hpc
    obtain rfl : e' = e := by simpa using hpc
    exact h.before fun hmem => (List.nodup_append.mp honce).2.2 e' hmem e' List.mem_cons_self rfl
  · show e ∈ (PacketExecuteQueue.next s.executeQueue (.invoke e')).returns → _
    rw [hnext]
    exact h.after

/-- The call of the processor ends. -/
theorem Handled.finish (h : Handled table found e made s) {e' : Packet π}
    {outcome : PacketExecuteQueue.Outcome}
    (hen : Enabled s (.executeQueue (.finish e' outcome))) :
    Handled table found e made (next s (.executeQueue (.finish e' outcome))) := by
  have hpc : s.executeQueue.pc .worker = .calling e' := hen.1
  refine ⟨h.session, h.before, ?_, ?_⟩
  · intro hcalling
    simp [next, PacketExecuteQueue.next] at hcalling
  · intro hmem
    rcases List.mem_append.mp hmem with hold | hnew
    · exact h.after hold
    · obtain rfl := List.mem_singleton.mp hnew
      have hstage := h.during hpc
      rcases hen.2 with hplace | ⟨hplace, -⟩
      · rw [hplace] at hstage
        exact hstage
      · rw [hplace] at hstage
        exact hstage

theorem Handled.passive (h : Handled table found e made s)
    {a : PacketExecuteQueue.Action π Unit} (ha : Passive a) :
    Handled table found e made (next s (.executeQueue a)) := by
  obtain ⟨hcalls, hreturns, -⟩ := queue_frame s.executeQueue ha
  have hsame := process_passive s ha
  refine ⟨?_, ?_, ?_, ?_⟩
  · show (s.process a).sessions.find _ = _
    rw [hsame]
    exact h.session
  · show e ∉ (PacketExecuteQueue.next s.executeQueue a).calls → _
    rw [hcalls]
    exact h.before
  · show (PacketExecuteQueue.next s.executeQueue a).pc .worker = .calling e →
      Stage _ _ _ _ ((s.process a).pc .worker)
    rw [hsame]
    exact fun hpc => h.during (calling_of_passive ha hpc)
  · show e ∈ (PacketExecuteQueue.next s.executeQueue a).returns → _
    rw [hreturns]
    exact h.after

/-- The two tests after the lookup. -/
theorem Handled.route (h : Handled table found e made s) (hs : Sound s)
    (htable : s.handlers = table) {item : PacketItem} {session : Option Session}
    (hpc : s.pc .worker = .route item session) :
    Handled table found e made (next s (.route item session)) := by
  simp only [next, htable]
  cases hprocess : processPacket table item session with
  | some inv =>
      refine h.process hs (by rw [hpc]; rfl) rfl rfl (fun _ => rfl) ?_
      intro hitem hstage _
      rw [hpc] at hstage
      obtain ⟨hnil, rfl⟩ := hstage
      rw [← hitem]
      simpa [State.goto, Stage] using ⟨hnil, hprocess⟩
  | none =>
      refine h.process hs (by rw [hpc]; rfl) rfl rfl (fun _ => rfl) ?_
      intro hitem hstage _
      rw [hpc] at hstage
      obtain ⟨hnil, rfl⟩ := hstage
      rw [← hitem]
      simpa [State.goto, Stage, hprocess] using hnil

/-- The handler is called: the only step that adds a call. -/
theorem Handled.call (h : Handled table found e made s) (hs : Sound s) {item : PacketItem}
    {inv : Invocation H} (hpc : s.pc .worker = .call item inv) :
    Handled table found e (made ++ (callFor e (s, (.call item inv : Action π τ H))).toList)
      (next s (.call item inv)) := by
  refine h.process hs (by rw [hpc]; rfl) rfl rfl ?_ ?_
  · intro hother
    simp [callFor, hother]
  · intro hitem hstage hcalling
    rw [hpc] at hstage
    obtain ⟨hnil, hprocess⟩ := hstage
    simp [next, State.goto, Stage, callFor, hcalling, hnil, hprocess]

/-- Every step keeps the account of the packet. -/
theorem handled_next (h : Handled table found e made s) (hs : Sound s)
    (htable : s.handlers = table) {a : Action π τ H} (hen : Enabled s a)
    (hspares : a.Spares e.value.sessionId) :
    Handled table found e (made ++ (callFor e (s, a)).toList) (next s a) := by
  have hsame : callFor e (s, a) = none → Handled table found e made (next s a) →
      Handled table found e (made ++ (callFor e (s, a)).toList) (next s a) := by
    intro hnone hnext
    rw [hnone, Option.toList_none, List.append_nil]
    exact hnext
  cases a with
  | executeQueue b =>
      apply hsame rfl
      cases b with
      | setProcessor o nonEmpty => exact hen.2.elim
      | invoke e' => exact h.invoke hs hen
      | finish e' outcome => exact h.finish hen
      | _ => exact h.passive trivial
  | begin t c | lock t c | unlock t =>
      exact hsame rfl (h.thread rfl (by simp [next, State.goto]) rfl)
  | apply t c =>
      apply hsame rfl
      refine h.thread rfl (by simp [next, State.goto]) ?_
      show (c.apply s.sessions).find _ = _
      rw [SessionManager.find_apply, if_neg hspares]
  | findLock item =>
      have hpc : s.pc .worker = .findLock item := hen.1
      apply hsame rfl
      refine h.process hs (by rw [hpc]; rfl) rfl rfl (fun _ => rfl) ?_
      intro _ hstage _
      rw [hpc] at hstage
      simpa [next, State.goto, Stage] using hstage
  | find item =>
      have hpc : s.pc .worker = .find item := hen
      apply hsame rfl
      refine h.process hs (by rw [hpc]; rfl) rfl rfl (fun _ => rfl) ?_
      intro hitem hstage _
      rw [hpc] at hstage
      simpa [next, State.goto, Stage, hitem, h.session] using hstage
  | findUnlock item session =>
      have hpc : s.pc .worker = .findUnlock item session := hen
      apply hsame rfl
      refine h.process hs (by rw [hpc]; rfl) rfl rfl (fun _ => rfl) ?_
      intro _ hstage _
      rw [hpc] at hstage
      simpa [next, State.goto, Stage] using hstage
  | route item session => exact hsame rfl (h.route hs htable hen)
  | call item inv => exact h.call hs hen

end

/-! ### A run -/

/-- Nothing is called for a packet before the processor is. -/
theorem callsFor_nil {tr : List (State π τ H × Action π τ H)} {s : State π τ H}
    (hr : (handlerManager π τ table).Run tr s) (he : e ∉ s.executeQueue.calls) :
    callsFor e tr = [] := by
  induction hr with
  | nil => rfl
  | @step tr s a h hen ih =>
      have hs := sound_of_run h
      have hbefore : e ∉ s.executeQueue.calls := by
        intro hmem
        apply he
        exact queue_next (P := fun q => e ∈ q.calls) hen hmem
          fun b _ _ => PacketExecuteQueue.calls_next s.executeQueue b hmem
      have hnone : callFor e (s, a) = none := by
        cases a with
        | call item inv => exact if_neg fun hpc => hbefore (hs.at_packet hpc).1
        | _ => rfl
      rw [callsFor_concat, ih hbefore, hnone]
      rfl

/-- From the push of a packet on, as long as its session is neither added nor removed. -/
theorem handled_of_run {tr pre mid : List (State π τ H × Action π τ H)} {s s₀ : State π τ H}
    {i : π} {item : PacketItem} (hr : (handlerManager π τ table).Run tr s)
    (htr : tr = pre ++ (s₀, .executeQueue (.enqueue i item)) :: mid)
    (hspares : Guarded (fun _ a => a.Spares item.sessionId) mid) :
    Handled table (s₀.sessions.find item.sessionId) (s₀.executeQueue.queue.newEntry i item)
      (callsFor (s₀.executeQueue.queue.newEntry i item) tr) s := by
  refine hr.since_trace (Q := fun tr s => Handled table (s₀.sessions.find item.sessionId)
    (s₀.executeQueue.queue.newEntry i item)
    (callsFor (s₀.executeQueue.queue.newEntry i item) tr) s) ?_ ?_ htr hspares
  · intro hrun hen
    have hs := sound_of_run hrun
    have hs' := sound_of_run (hrun.step hen)
    have hqueue := hs.balanced
    have hnew : s₀.executeQueue.queue.newEntry i item ∉ s₀.executeQueue.calls := by
      intro hmem
      have hdequeued : s₀.executeQueue.queue.newEntry i item ∈ s₀.executeQueue.queue.dequeued := by
        rw [hqueue.handed]
        exact List.mem_append_left _ hmem
      have henqueued := ProducerQueue.mem_enqueued.mpr (.inl hdequeued)
      have honce := (s₀.executeQueue.queue.enqueue i item).nodup_enqueued
      exact (List.nodup_append.mp honce).2.2 _ henqueued _ List.mem_cons_self rfl
    have hnil : callsFor (s₀.executeQueue.queue.newEntry i item)
        (pre ++ [(s₀, .executeQueue (.enqueue i item))]) = [] := by
      rw [callsFor_concat, callsFor_nil hrun hnew]
      rfl
    rw [hnil]
    refine ⟨rfl, fun _ => rfl, ?_, ?_⟩
    · intro hpc
      exact absurd (hs'.at_packet hpc).1 hnew
    · intro hmem
      apply absurd _ hnew
      rw [hqueue.completed]
      exact List.mem_append_left _ hmem
  · intro tr s a hrun h hen ha
    rw [callsFor_concat]
    exact handled_next h (sound_of_run hrun) (tracked_of_run hrun).handlers hen ha

/-- What was pushed stays on record. -/
theorem enqueued_of_run {tr pre mid : List (State π τ H × Action π τ H)} {s s₀ : State π τ H}
    {i : π} {item : PacketItem} (hr : (handlerManager π τ table).Run tr s)
    (htr : tr = pre ++ (s₀, .executeQueue (.enqueue i item)) :: mid) :
    s₀.executeQueue.queue.newEntry i item ∈ s.executeQueue.queue.enqueued := by
  refine hr.since (G := fun _ _ => True)
    (Q := fun s => s₀.executeQueue.queue.newEntry i item ∈ s.executeQueue.queue.enqueued)
    ?_ ?_ htr fun _ _ => trivial
  · intro _
    exact List.mem_append_right _ List.mem_cons_self
  · intro s a _ h hen _
    exact queue_next (P := fun q => s₀.executeQueue.queue.newEntry i item ∈ q.queue.enqueued) hen h
      fun b _ _ => PacketExecuteQueue.enqueued_next s.executeQueue b h

/-- A `Stop` that has found a worker and has not returned drains the queue. -/
theorem draining_of_run {tr pre mid : List (State π τ H × Action π τ H)} {s s₁ : State π τ H}
    (hr : (handlerManager π τ table).Run tr s)
    (htr : tr = pre ++ (s₁, .executeQueue (.clear ())) :: mid)
    (hworker : s₁.executeQueue.pc .worker ≠ .idle)
    (hmid : Guarded (fun _ a => ¬a.Returns) mid) :
    PacketExecuteQueue.Draining s₁.executeQueue.queue.enqueued s.executeQueue := by
  obtain ⟨hrun₁, -⟩ := hr.split htr
  have hs₁ := sound_of_run hrun₁
  refine hr.since (Q := fun s => PacketExecuteQueue.Draining s₁.executeQueue.queue.enqueued
    s.executeQueue) ?_ ?_ htr hmid
  · intro hen
    exact PacketExecuteQueue.draining_clear hs₁.queue.alternates hs₁.balanced
      (fun _ => hs₁.processor) hworker hen.1
  · intro s a _ h hen ha
    apply queue_next hen h
    rintro b rfl hstep
    exact PacketExecuteQueue.draining_next s.executeQueue b h hstep ha

/-- **Every packet is served before `Stop` returns.**  Take a packet that is pushed before `Stop`
clears the flag, and whose session nobody adds or removes from the push on.  When `Stop` returns,
the calls made for the packet are the one that `ProcessPacket` makes for it, or none. -/
theorem packet_served {tr pre mid mid' : List (State π τ H × Action π τ H)} {s s₀ s₁ : State π τ H}
    {i : π} {item : PacketItem} {a : Action π τ H} (hr : (handlerManager π τ table).Run tr s)
    (htr : tr = pre ++ (s₀, .executeQueue (.enqueue i item)) ::
      (mid ++ (s₁, .executeQueue (.clear ())) :: mid'))
    (hspares : Guarded (fun _ a => a.Spares item.sessionId)
      (mid ++ (s₁, .executeQueue (.clear ())) :: mid'))
    (hworker : s₁.executeQueue.pc .worker ≠ .idle)
    (hmid : Guarded (fun _ a => ¬a.Returns) mid')
    (hen : Enabled s a) (ha : a.Returns) :
    callsFor (s₀.executeQueue.queue.newEntry i item) tr
      = (processPacket table item (s₀.sessions.find item.sessionId)).toList := by
  have hcut : tr = (pre ++ (s₀, .executeQueue (.enqueue i item)) :: mid) ++
      (s₁, .executeQueue (.clear ())) :: mid' := by simp [htr]
  have hdraining := draining_of_run hr hcut hworker hmid
  have hpushed : s₀.executeQueue.queue.newEntry i item ∈ s₁.executeQueue.queue.enqueued :=
    enqueued_of_run (hr.split hcut).1 rfl
  have hreturned : s₀.executeQueue.queue.newEntry i item ∈ s.executeQueue.returns := by
    cases a with
    | executeQueue b =>
        cases b with
        | join o => exact hdraining.drained (.inr hen.1.2) _ hpushed
        | notJoinable o => exact absurd hen.1.2 hdraining.worker
        | _ => exact ha.elim
    | _ => exact ha.elim
  exact (handled_of_run hr htr hspares).after hreturned

/-! ### Requests -/

theorem lookup_registerAllHandlers (handler : H) (packetId : PacketID) :
    (registerAllHandlers handler).lookup packetId.value
      = if packetId = .REQ_ECHO then some handler else none := by
  unfold registerAllHandlers
  by_cases hid : packetId = .REQ_ECHO
  · rw [if_pos hid, hid, AList.lookup_insert]
  · have hvalue : packetId.value ≠ PacketID.REQ_ECHO.value := by
      intro heq
      cases packetId
      exact hid (congrArg PacketID.mk heq)
    rw [if_neg hid, AList.lookup_insert_ne hvalue, AList.lookup_empty]

/-- **A request is echoed before `Stop` returns**, in every interleaving.  A packet is pushed before
`Stop` clears the flag, and nobody adds or removes its session from the push on.  When `Stop`
returns, nothing was called for it if it has no session or is no `REQ_ECHO`.  Otherwise the echo
handler was called once, with its session and its payload, and it built a response with a text if
and only if the payload holds a request with this text and the text is not too long. -/
theorem request_echoed
    {tr pre mid mid' : List (State π τ HandlerFunction × Action π τ HandlerFunction)}
    {s s₀ s₁ : State π τ HandlerFunction} {i : π} {item : PacketItem}
    {a : Action π τ HandlerFunction}
    (hr : (handlerManager π τ (registerAllHandlers createEchoHandler)).Run tr s)
    (htr : tr = pre ++ (s₀, .executeQueue (.enqueue i item)) ::
      (mid ++ (s₁, .executeQueue (.clear ())) :: mid'))
    (hspares : Guarded (fun _ a => a.Spares item.sessionId)
      (mid ++ (s₁, .executeQueue (.clear ())) :: mid'))
    (hworker : s₁.executeQueue.pc .worker ≠ .idle)
    (hmid : Guarded (fun _ a => ¬a.Returns) mid')
    (hen : Enabled s a) (ha : a.Returns) :
    (s₀.sessions.find item.sessionId = none ∨ item.packetId ≠ .REQ_ECHO →
      callsFor (s₀.executeQueue.queue.newEntry i item) tr = []) ∧
    ∀ session, s₀.sessions.find item.sessionId = some session → item.packetId = .REQ_ECHO →
      callsFor (s₀.executeQueue.queue.newEntry i item) tr
        = [⟨createEchoHandler, session, item.payload, item.payloadSize⟩] ∧
      ∀ text, (∃ inv ∈ callsFor (s₀.executeQueue.queue.newEntry i item) tr,
        Echoes item.payload inv.run text) ↔
          HoldsMessage item.payload text ∧ text.length ≤ 0x7fffffe7 := by
  have hserved := packet_served hr htr hspares hworker hmid hen ha
  refine ⟨?_, ?_⟩
  · intro hmissing
    rw [hserved]
    cases hfound : s₀.sessions.find item.sessionId with
    | none => rfl
    | some session =>
        have hid : item.packetId ≠ .REQ_ECHO := by
          rcases hmissing with hnone | hid
          · exact absurd (hfound.symm.trans hnone) (by simp)
          · exact hid
        simp [processPacket, lookup_registerAllHandlers, hid]
  · intro session hfound hid
    have hcall : callsFor (s₀.executeQueue.queue.newEntry i item) tr
        = [⟨createEchoHandler, session, item.payload, item.payloadSize⟩] := by
      rw [hserved, hfound]
      simp [processPacket, lookup_registerAllHandlers, hid]
    refine ⟨hcall, ?_⟩
    intro text
    rw [hcall, ← @echoes_iff session item.payload text item.payloadSize]
    simp only [List.mem_singleton, exists_eq_left]
    rfl

/-- The request with the message "hi". -/
def hi : PacketItem :=
  ⟨.REQ_ECHO, 7, [12, 0, 0, 0, 0, 0, 6, 0, 8, 0, 4, 0, 6, 0, 0, 0, 4, 0, 0, 0, 2, 0, 0, 0, 104, 105,
    0, 0], 28⟩

def addSession : List (Action Unit Unit HandlerFunction) :=
  [.begin () (.add ⟨1, 7⟩), .lock () (.add ⟨1, 7⟩), .apply () (.add ⟨1, 7⟩), .unlock ()]

/-- `Start`, and `Stop` before the worker has taken a step. -/
def startAndStop : List (Action Unit Unit HandlerFunction) :=
  [.executeQueue (.start ()), .executeQueue (.spawn ()), .executeQueue (.stop ())]

/-- The worker serves the request and leaves. -/
def serveAndLeave : List (Action Unit Unit HandlerFunction) :=
  [.executeQueue (.endLock ()), .executeQueue (.notifyAll ()), .executeQueue (.joinable ()),
    .executeQueue .lock, .executeQueue .predRunning, .executeQueue .testRunning,
    .executeQueue .testPending, .executeQueue .unlock, .executeQueue .hasPending,
    .executeQueue (.tryDequeue ⟨(), 0, hi⟩), .executeQueue (.invoke ⟨(), 0, hi⟩), .findLock hi,
    .find hi, .findUnlock hi (some ⟨1, 7⟩), .route hi (some ⟨1, 7⟩),
    .call hi ⟨createEchoHandler, ⟨1, 7⟩, hi.payload, hi.payloadSize⟩,
    .executeQueue (.finish ⟨(), 0, hi⟩ .returned), .executeQueue .hasPending, .executeQueue .lock,
    .executeQueue .predRunning, .executeQueue .testRunning, .executeQueue .testPending,
    .executeQueue .exit]

theorem request_echoed_hi :
    let system := handlerManager Unit Unit (registerAllHandlers createEchoHandler)
    let trace := system.trace system.init (addSession ++ .executeQueue (.enqueue () hi) ::
      (startAndStop ++ .executeQueue (.clear ()) :: serveAndLeave))
    ∃ inv ∈ callsFor ⟨(), 0, hi⟩ trace, Echoes hi.payload inv.run [104, 105] := by
  intro system trace
  have hadmits : system.Admits system.init (addSession ++ .executeQueue (.enqueue () hi) ::
      (startAndStop ++ .executeQueue (.clear ()) :: serveAndLeave)) := by
    repeat' first | exact rfl | constructor | decide
  have htr : trace = system.trace system.init addSession ++
      (system.after system.init addSession, .executeQueue (.enqueue () hi)) ::
        (system.trace (system.next (system.after system.init addSession)
            (.executeQueue (.enqueue () hi))) startAndStop ++
          (system.after system.init (addSession ++ .executeQueue (.enqueue () hi) :: startAndStop),
            .executeQueue (.clear ())) ::
          system.trace (system.after system.init (addSession ++ .executeQueue (.enqueue () hi) ::
            (startAndStop ++ [.executeQueue (.clear ())]))) serveAndLeave) := rfl
  have hstart : ∀ a ∈ startAndStop, a.Spares hi.sessionId := by
    simp [startAndStop, Action.Spares]
  have hserve : ∀ a ∈ serveAndLeave, a.Spares hi.sessionId ∧ ¬a.Returns := by
    simp [serveAndLeave, Action.Spares, Action.Returns, PacketExecuteQueue.Returns]
  have hread : readMessage hi.payload = .ok [104, 105] := by decide
  obtain ⟨-, hechoed⟩ := request_echoed (run_of_admits hadmits) htr
    (guarded_append.mpr ⟨guarded_trace hstart,
      List.forall_mem_cons.mpr ⟨trivial, guarded_trace fun a ha => (hserve a ha).1⟩⟩)
    (by decide) (guarded_trace fun a ha => (hserve a ha).2)
    (a := .executeQueue (.join ())) ⟨⟨rfl, rfl⟩, trivial⟩ trivial
  exact ((hechoed ⟨1, 7⟩ rfl rfl).2 _).mpr ⟨readMessage_eq_ok.mp hread, by decide⟩

end Game.HandlerManager
