/-
What the send path delivers.

`WriteAsync` tests `try_dequeue` the wrong way round.  A packet it takes out of the queue is
dropped with the local variable, and an `async_write` is started only when nothing was taken
out, of the empty vector the local variable still is.

So from the moment a call of `WriteAsync` ends, a packet has been lost or a buffer nobody sent
has been written.  `Spoiled` is that fact; every later step keeps it, because a lost packet is
in nobody's local variable and a queue never gives out the same entry twice.  Before that moment
nothing has been written and whatever was taken out is still held, which is `Intact`.  Between
them the two decide delivery for every run.
-/
import Cube.Core.Session.WriteChain

namespace Core.SessionBase

open Library System

variable {τ : Type} [DecidableEq τ]

/-! ### Delivery -/

/-- The sequence of buffers handed to `asio::async_write` delivers the packets given to `Send`:
only those, none twice, in the order each thread sent them, and none that left the queue is
missing unless a call of `WriteAsync` still holds it. -/
structure Delivered (s : State τ) : Prop where
  onlySent : ∀ packet ∈ s.written, ∃ e ∈ s.sendQueue.enqueued, packet = some e
  once : s.written.Nodup
  ordered : ∀ t, ((s.written.filterMap id).filter (·.producer = t)).Sublist
    (s.sendQueue.enqueued.filter (·.producer = t))
  noLoss : ∀ e ∈ s.sendQueue.dequeued, some e ∈ s.written ∨
    ∃ p, s.pc p = .release (some e) ∨ s.pc p = .asyncWrite (some e)

/-- The steps with which a call of `WriteAsync` ends. -/
def EndsWriteAsync : Action τ → Prop
  | .release .. | .asyncWrite .. => True
  | _ => False

instance : DecidablePred (EndsWriteAsync (τ := τ))
  | .release .. | .asyncWrite .. => isTrue trivial
  | .enqueue .. | .compareExchange .. | .tryDequeueTrue .. | .tryDequeueFalse ..
  | .complete .. | .disconnect .. => isFalse id

/-! ### What the local vector holds -/

/-- What the local `packet` of `WriteAsync` can be at each point, and what has been written. -/
structure Locals (s : State τ) : Prop where
  taken : ∀ p packet, s.pc p = .release packet → ∃ e ∈ s.sendQueue.dequeued, packet = some e
  untouched : ∀ p packet, s.pc p = .asyncWrite packet → packet = none
  empty : ∀ packet ∈ s.written, packet = none

theorem Locals.goto {s : State τ} (h : Locals s) {p : Party τ} {f : Point τ}
    (ht : ∀ packet, f = .release packet → ∃ e ∈ s.sendQueue.dequeued, packet = some e)
    (hu : ∀ packet, f = .asyncWrite packet → packet = none) : Locals (s.goto p f) where
  taken := by
    intro q packet hq
    by_cases hqp : q = p
    · rw [hqp, goto_pc, Function.update_self] at hq
      exact ht packet hq
    · rw [goto_pc, Function.update_of_ne hqp] at hq
      exact h.taken q packet hq
  untouched := by
    intro q packet hq
    by_cases hqp : q = p
    · rw [hqp, goto_pc, Function.update_self] at hq
      exact hu packet hq
    · rw [goto_pc, Function.update_of_ne hqp] at hq
      exact h.untouched q packet hq
  empty := h.empty

theorem locals_init : Locals (init : State τ) :=
  ⟨by simp [init], by simp [init], by simp [init]⟩

theorem locals_next (s : State τ) (a : Action τ) (h : Locals s) (hen : Enabled s a) :
    Locals (next s a) := by
  cases a with
  | enqueue t data =>
      have hmove : Locals (s.goto (.send t) .compareExchange) := h.goto (by simp) (by simp)
      exact ⟨hmove.taken, hmove.untouched, hmove.empty⟩
  | compareExchange t =>
      simp only [next]
      split
      · exact h.goto (by simp) (by simp)
      · have hmove : Locals (s.goto (.send t) .tryDequeue) := h.goto (by simp) (by simp)
        exact ⟨hmove.taken, hmove.untouched, hmove.empty⟩
  | tryDequeueTrue p e =>
      -- the queue changes first, then the party moves on with `e` in its local vector
      have hdeq := ProducerQueue.dequeueFrom_dequeued hen.2
      have hqueue : Locals { s with sendQueue := s.sendQueue.dequeueFrom e.producer } := by
        refine ⟨fun q packet hq => ?_, h.untouched, h.empty⟩
        obtain ⟨e', he', rfl⟩ := h.taken q packet hq
        exact ⟨e', by rw [hdeq]; exact List.mem_append_left _ he', rfl⟩
      refine hqueue.goto (p := p) (f := .release (some e)) ?_ (by simp)
      intro packet heq
      cases heq
      exact ⟨e, by rw [hdeq]; simp, rfl⟩
  | tryDequeueFalse p => exact h.goto (by simp) (by rintro packet ⟨⟩; rfl)
  | release p packet =>
      have hmove : Locals (s.goto p .idle) := h.goto (by simp) (by simp)
      exact ⟨hmove.taken, hmove.untouched, hmove.empty⟩
  | asyncWrite p packet =>
      have hnone : packet = none := h.untouched p packet hen
      have hidle : Locals (s.goto p .idle) := h.goto (by simp) (by simp)
      have hmove : Locals ((s.goto p .idle).goto (.handler s.written.length) .writing) :=
        hidle.goto (by simp) (by simp)
      refine ⟨hmove.taken, hmove.untouched, ?_⟩
      intro packet' hp'
      rcases List.mem_append.mp hp' with hold | hnew
      · exact h.empty packet' hold
      · rw [List.mem_singleton.mp hnew, hnone]
  | complete n ec =>
      simp only [next]
      split
      · have hmove : Locals (s.goto (.handler n) .disconnect) := h.goto (by simp) (by simp)
        exact ⟨hmove.taken, hmove.untouched, hmove.empty⟩
      · exact h.goto (by simp) (by simp)
  | disconnect n =>
      have hmove : Locals (s.goto (.handler n) .failed) := h.goto (by simp) (by simp)
      exact ⟨hmove.taken, hmove.untouched, hmove.empty⟩

/-! ### Once a call of `WriteAsync` has ended -/

/-- A buffer nobody sent has been written, or a packet has left the queue that no call holds. -/
def Spoiled (s : State τ) : Prop :=
  none ∈ s.written ∨ ∃ e ∈ s.sendQueue.dequeued, ∀ p, s.pc p ≠ .release (some e)

theorem not_delivered_of_spoiled {s : State τ} (hl : Locals s) (hs : Spoiled s) :
    ¬Delivered s := by
  intro hd
  rcases hs with hnone | ⟨e, he, hno⟩
  · obtain ⟨e, -, heq⟩ := hd.onlySent none hnone
    simp at heq
  · rcases hd.noLoss e he with hw | ⟨p, hp | hp⟩
    · exact absurd (hl.empty _ hw) (by simp)
    · exact hno p hp
    · exact absurd (hl.untouched p _ hp) (by simp)

/-- The step that ends a call of `WriteAsync` spoils the session. -/
theorem spoiled_of_ends {s : State τ} {a : Action τ} (hc : Chain s) (hl : Locals s)
    (hen : Enabled s a) (ha : EndsWriteAsync a) : Spoiled (next s a) := by
  cases a with
  | release p packet =>
      have hpc : s.pc p = .release packet := hen
      obtain ⟨e, he, rfl⟩ := hl.taken p packet hpc
      refine Or.inr ⟨e, he, ?_⟩
      intro q hq
      -- the caller was the only one at such a point, and it has moved away
      have hnone := hc.not_carries_of_drop (p := p) (f := .idle) (by rw [hpc]; trivial)
        (by simp [Carries]) q
      have hq' : Function.update s.pc p .idle q = .release (some e) := hq
      rw [hq'] at hnone
      exact hnone trivial
  | asyncWrite p packet =>
      have hnone : packet = none := hl.untouched p packet hen
      exact Or.inl (by simp [next, hnone])
  | enqueue t data => exact absurd ha id
  | compareExchange t => exact absurd ha id
  | tryDequeueTrue p e => exact absurd ha id
  | tryDequeueFalse p => exact absurd ha id
  | complete n ec => exact absurd ha id
  | disconnect n => exact absurd ha id

theorem Spoiled.goto {s : State τ} (h : Spoiled s) {p : Party τ} {f : Point τ}
    (hf : ∀ e ∈ s.sendQueue.dequeued, f ≠ .release (some e)) : Spoiled (s.goto p f) := by
  rcases h with hnone | ⟨e, he, hno⟩
  · exact Or.inl hnone
  · refine Or.inr ⟨e, he, ?_⟩
    intro q hq
    by_cases hqp : q = p
    · rw [hqp, goto_pc, Function.update_self] at hq
      exact hf e he hq
    · rw [goto_pc, Function.update_of_ne hqp] at hq
      exact hno q hq

theorem spoiled_next {s : State τ} {a : Action τ} (h : Spoiled s) (hen : Enabled s a) :
    Spoiled (next s a) := by
  cases a with
  | enqueue t data => exact h.goto (p := .send t) (f := .compareExchange) (by simp)
  | compareExchange t =>
      simp only [next]
      split
      · exact h.goto (by simp)
      · exact h.goto (p := .send t) (f := .tryDequeue) (by simp)
  | tryDequeueTrue p e =>
      have hdeq := ProducerQueue.dequeueFrom_dequeued hen.2
      rcases h with hnone | ⟨e', he', hno⟩
      · exact Or.inl hnone
      · refine Or.inr ⟨e', by show e' ∈ (s.sendQueue.dequeueFrom _).dequeued; simp [hdeq, he'], ?_⟩
        intro q hq
        by_cases hqp : q = p
        · -- the packet just taken was still waiting, so it is not the lost one
          have heq : e = e' := by
            have hq' : Function.update s.pc p (.release (some e)) q = .release (some e') := hq
            rw [hqp, Function.update_self] at hq'
            simpa using hq'
          exact ProducerQueue.not_pending_of_dequeued he' (heq ▸ ProducerQueue.front_mem hen.2)
        · exact hno q (by rw [← hq]; exact (Function.update_of_ne hqp ..).symm)
  | tryDequeueFalse p => exact h.goto (by simp)
  | release p packet => exact h.goto (p := p) (f := .idle) (by simp)
  | asyncWrite p packet =>
      have hidle : Spoiled (s.goto p .idle) := h.goto (by simp)
      have hmove : Spoiled ((s.goto p .idle).goto (.handler s.written.length) .writing) :=
        hidle.goto (by simp)
      exact hmove.imp (List.mem_append_left _) id
  | complete n ec =>
      simp only [next]
      split
      · exact h.goto (p := .handler n) (f := .disconnect) (by simp)
      · exact h.goto (by simp)
  | disconnect n => exact h.goto (p := .handler n) (f := .failed) (by simp)

theorem locals_of_run {tr : List (State τ × Action τ)} {s : State τ}
    (hr : (sendPath τ).Run tr s) : Locals s :=
  hr.invariant locals_init locals_next

/-- A session that has seen one call of `WriteAsync` end is spoiled for good. -/
theorem spoiled_of_run {tr : List (State τ × Action τ)} {s : State τ}
    (hr : (sendPath τ).Run tr s) (hends : ∃ e ∈ tr, EndsWriteAsync e.2) : Spoiled s := by
  induction hr with
  | nil => simp at hends
  | @step tr s a h hen ih =>
      obtain ⟨e, he, hact⟩ := hends
      rcases List.mem_append.mp he with hold | hnew
      · exact spoiled_next (ih ⟨e, hold, hact⟩) hen
      · rw [List.mem_singleton.mp hnew] at hact
        exact spoiled_of_ends (chain_of_run h) (locals_of_run h) hen hact

/-! ### Before a call of `WriteAsync` has ended -/

/-- Nothing is written yet, and what was taken out is still held.  If the flag is up somebody
owns the chain, and if it is down nobody has come past the compare-and-exchange. -/
structure Intact (s : State τ) : Prop where
  written : s.written = []
  held : ∀ e ∈ s.sendQueue.dequeued, ∃ p, s.pc p = .release (some e)
  owned : s.isWriting = true → ∃ p, Carries (s.pc p)
  waiting : s.isWriting = false → s.sendQueue.enqueued ≠ [] → ∃ t, s.pc (.send t) = .compareExchange

theorem delivered_of_intact {s : State τ} (h : Intact s) : Delivered s where
  onlySent := by simp [h.written]
  once := by simp [h.written]
  ordered := by simp [h.written]
  noLoss := by
    intro e he
    obtain ⟨p, hp⟩ := h.held e he
    exact Or.inr ⟨p, Or.inl hp⟩

theorem Intact.goto {s : State τ} (h : Intact s) {p : Party τ} {f : Point τ}
    (hp : ∀ packet, s.pc p ≠ .release packet) (hcar : Carries (s.pc p) → Carries f)
    (hcas : s.pc p ≠ .compareExchange) : Intact (s.goto p f) where
  written := h.written
  held := by
    intro e he
    obtain ⟨q, hq⟩ := h.held e he
    have hqp : q ≠ p := fun heq => hp _ (heq ▸ hq)
    exact ⟨q, by rw [goto_pc, Function.update_of_ne hqp, hq]⟩
  owned := by
    intro hw
    obtain ⟨q, hq⟩ := h.owned hw
    by_cases hqp : q = p
    · exact ⟨p, by rw [goto_pc, Function.update_self]; exact hcar (hqp ▸ hq)⟩
    · exact ⟨q, by rw [goto_pc, Function.update_of_ne hqp]; exact hq⟩
  waiting := by
    intro hw hne
    obtain ⟨t, ht⟩ := h.waiting hw hne
    have htp : Party.send t ≠ p := fun heq => hcas (heq ▸ ht)
    exact ⟨t, by rw [goto_pc, Function.update_of_ne htp, ht]⟩

theorem intact_init : Intact (init : State τ) :=
  ⟨rfl, by simp [init], by simp [init], by simp [init]⟩

theorem intact_next (s : State τ) (a : Action τ) (h : Intact s) (hen : Enabled s a)
    (hends : ¬EndsWriteAsync a) : Intact (next s a) := by
  cases a with
  | enqueue t data =>
      have hpc : s.pc (.send t) = .idle := hen
      have hmove : Intact (s.goto (.send t) .compareExchange) :=
        h.goto (by simp [hpc]) (by simp [hpc, Carries]) (by simp [hpc])
      refine ⟨hmove.written, hmove.held, hmove.owned, fun _ _ => ⟨t, ?_⟩⟩
      exact Function.update_self ..
  | compareExchange t =>
      have hpc : s.pc (.send t) = .compareExchange := hen
      simp only [next]
      split
      · rename_i hw
        -- the caller is not the owner, so the owner is still there
        refine ⟨h.written, ?_, fun _ => ?_, fun hw' => absurd hw (by simpa using hw')⟩
        · intro e he
          obtain ⟨q, hq⟩ := h.held e he
          have hqt : q ≠ .send t := fun heq => by rw [heq, hpc] at hq; simp at hq
          exact ⟨q, by rw [goto_pc, Function.update_of_ne hqt, hq]⟩
        · obtain ⟨q, hq⟩ := h.owned hw
          have hqt : q ≠ .send t := fun heq => by rw [heq, hpc] at hq; exact hq
          exact ⟨q, by rw [goto_pc, Function.update_of_ne hqt]; exact hq⟩
      · refine ⟨h.written, ?_, fun _ => ⟨.send t, ?_⟩, by simp⟩
        · intro e he
          obtain ⟨q, hq⟩ := h.held e he
          have hqt : q ≠ .send t := fun heq => by rw [heq, hpc] at hq; simp at hq
          exact ⟨q, (Function.update_of_ne hqt ..).trans hq⟩
        · show Carries (Function.update s.pc (.send t) .tryDequeue (.send t))
          rw [Function.update_self]
          trivial
  | tryDequeueTrue p e =>
      have hdeq := ProducerQueue.dequeueFrom_dequeued hen.2
      have hmove : Intact (s.goto p (.release (some e))) :=
        h.goto (by simp [hen.1]) (by simp [Carries]) (by simp [hen.1])
      refine ⟨hmove.written, fun e' he' => ?_, hmove.owned, hmove.waiting⟩
      have hmem : e' ∈ s.sendQueue.dequeued ++ [e] := hdeq ▸ he'
      rcases List.mem_append.mp hmem with hold | hnew
      · exact hmove.held e' hold
      · exact ⟨p, by rw [List.mem_singleton.mp hnew]; exact Function.update_self ..⟩
  | tryDequeueFalse p =>
      have hpc : s.pc p = .tryDequeue := hen
      exact h.goto (by simp [hpc]) (by simp [Carries]) (by simp [hpc])
  | release p packet => exact absurd trivial hends
  | asyncWrite p packet => exact absurd trivial hends
  | complete n ec =>
      have hpc : s.pc (.handler n) = .writing := hen
      simp only [next]
      split
      · have hmove : Intact (s.goto (.handler n) .disconnect) :=
          h.goto (by simp [hpc]) (by simp [Carries]) (by simp [hpc])
        exact ⟨hmove.written, hmove.held, hmove.owned, hmove.waiting⟩
      · exact h.goto (by simp [hpc]) (by simp [Carries]) (by simp [hpc])
  | disconnect n =>
      have hpc : s.pc (.handler n) = .disconnect := hen
      have hmove : Intact (s.goto (.handler n) .failed) :=
        h.goto (by simp [hpc]) (by simp [Carries]) (by simp [hpc])
      exact ⟨hmove.written, hmove.held, hmove.owned, hmove.waiting⟩

theorem intact_of_run {tr : List (State τ × Action τ)} {s : State τ}
    (hr : (sendPath τ).Run tr s) (hg : Guarded (fun _ a => ¬EndsWriteAsync a) tr) : Intact s :=
  hr.invariant_of_guarded intact_init intact_next hg

/-- **When packets are delivered.**  A run delivers exactly as long as no call of `WriteAsync` has
come to its end.  So once every call of `Send` that was made has returned, and no write is
outstanding, it does not. -/
theorem delivered_iff {tr : List (State τ × Action τ)} {s : State τ}
    (hr : (sendPath τ).Run tr s) :
    (Delivered s ↔ ∀ e ∈ tr, ¬EndsWriteAsync e.2) ∧
    ((∀ p, s.pc p = .idle) → s.sendQueue.enqueued ≠ [] → ¬Delivered s) := by
  have hiff : Delivered s ↔ ∀ e ∈ tr, ¬EndsWriteAsync e.2 := by
    refine ⟨?_, ?_⟩
    · intro hd e he hact
      exact not_delivered_of_spoiled (locals_of_run hr) (spoiled_of_run hr ⟨e, he, hact⟩) hd
    · intro hg
      exact delivered_of_intact (intact_of_run hr hg)
  refine ⟨hiff, ?_⟩
  intro hidle hne hd
  have hin := intact_of_run hr (hiff.mp hd)
  by_cases hw : s.isWriting = true
  · obtain ⟨p, hp⟩ := hin.owned hw
    rw [hidle p] at hp
    exact hp
  · obtain ⟨t, ht⟩ := hin.waiting (by simpa using hw) hne
    rw [hidle] at ht
    simp at ht

/-- One thread sends one packet on a fresh session. -/
def singleSendScript : List (Action Unit) :=
  [.enqueue () [1, 2, 3], .compareExchange (), .tryDequeueTrue (.send ()) ⟨(), 0, [1, 2, 3]⟩,
   .release (.send ()) (some ⟨(), 0, [1, 2, 3]⟩)]

theorem delivered_iff_single :
    ¬Delivered ((sendPath Unit).after init singleSendScript) := by
  have hadmits : (sendPath Unit).Admits init singleSendScript := by decide
  intro hd
  have hnone := (delivered_iff (run_of_admits hadmits)).1.mp hd
  exact absurd hnone (by decide)

/-- The packet of that one `Send` leaves the queue and is never written: no step of the run is an
error, every call has returned, and the sequence of buffers written is empty. -/
theorem single_send_lost :
    (sendPath Unit).Admits init singleSendScript ∧
    (∀ e ∈ (sendPath Unit).trace init singleSendScript, ∀ n ec, e.2 = .complete n ec →
      ec.failed = false) ∧
    ¬Delivered ((sendPath Unit).after init singleSendScript) := by
  refine ⟨by decide, ?_, fun hd => ?_⟩
  · simp [singleSendScript, System.trace]
  · have hloss := hd.noLoss ⟨(), 0, [1, 2, 3]⟩ (by decide)
    rcases hloss with hw | ⟨p, hp | hp⟩
    · exact absurd hw (by decide)
    · cases p <;> exact absurd hp (by simp [singleSendScript, sendPath, next, State.goto, init])
    · cases p <;> exact absurd hp (by simp [singleSendScript, sendPath, next, State.goto, init])

end Core.SessionBase
