/-
Packets left behind when the write chain is released.

Every `Send` adds one packet to the queue, and every owner of the write chain takes exactly one
out before it lets go.  So the packets in the queue can be counted.  While the chain is free
they are the packets of the calls that lost the compare-and-exchange, and of the calls that have
enqueued and not yet come to it; while it is owned there is one more, until the owner has taken
its own.  `Ledger` is that count, kept along a run.

It follows that a packet is stranded, in the queue with the chain free and no caller left to
restart it, exactly when some call has lost the compare-and-exchange.  The owner it lost to
never looks at the queue again on its behalf.
-/
import Cube.Core.Session.WriteChain
import Mathlib.Data.Finset.Card

namespace Core.SessionBase

open Library System

variable {τ : Type} [DecidableEq τ]

/-- A packet waits, nobody writes, and no `Send` is between its enqueue and its
compare-and-exchange. -/
def Stranded (s : State τ) : Prop :=
  s.sendQueue.pending ≠ [] ∧ s.isWriting = false ∧ ∀ t, s.pc (.send t) ≠ .compareExchange

/-- The step is a compare-and-exchange that finds `_isWriting` set. -/
def lostExchange : State τ × Action τ → Bool
  | (s, .compareExchange _) => s.isWriting
  | _ => false

/-- Some owner has taken its packet out and not yet released. -/
def Popped (s : State τ) : Prop := ∃ p packet, s.pc p = .release packet

/-- How many packets are in the queue after the steps `tr`, for the set `B` of threads between
their enqueue and their compare-and-exchange. -/
structure Ledger (tr : List (State τ × Action τ)) (s : State τ) (B : Finset τ) : Prop where
  between : ∀ t, t ∈ B ↔ s.pc (.send t) = .compareExchange
  settled : s.isWriting = false ∨ Popped s →
    s.sendQueue.pending.length = B.card + tr.countP lostExchange
  owing : s.isWriting = true → ¬Popped s →
    s.sendQueue.pending.length = B.card + tr.countP lostExchange + 1

/-! ### The points a step changes -/

/-- A party that neither was nor comes to be between enqueue and exchange does not change `B`. -/
theorem between_goto {s : State τ} {B : Finset τ}
    (h : ∀ t, t ∈ B ↔ s.pc (.send t) = .compareExchange) {p : Party τ} {f : Point τ}
    (hp : s.pc p ≠ .compareExchange) (hf : f ≠ .compareExchange) (t : τ) :
    t ∈ B ↔ (s.goto p f).pc (.send t) = .compareExchange := by
  rw [h t, goto_pc]
  by_cases htp : Party.send t = p
  · rw [htp, Function.update_self]
    simp [hp, hf]
  · rw [Function.update_of_ne htp]

/-- If some party owns the chain and has not taken its packet, nobody has. -/
theorem not_popped {s : State τ} (hc : Chain s) {p : Party τ} (hp : Carries (s.pc p))
    (hno : ∀ packet, s.pc p ≠ .release packet) : ¬Popped s := by
  intro hpopped
  obtain ⟨q, packet, hq⟩ := hpopped
  have hqp : q = p := hc.single q p (by rw [hq]; trivial) hp
  exact hno packet (hqp ▸ hq)

theorem popped_goto {s : State τ} {p : Party τ} {f : Point τ}
    (hp : ∀ packet, s.pc p ≠ .release packet) (hf : ∀ packet, f ≠ .release packet) :
    Popped (s.goto p f) ↔ Popped s := by
  refine ⟨?_, ?_⟩
  · intro hpopped
    obtain ⟨q, packet, hq⟩ := hpopped
    by_cases hqp : q = p
    · rw [hqp, goto_pc, Function.update_self] at hq
      exact absurd hq (hf packet)
    · rw [goto_pc, Function.update_of_ne hqp] at hq
      exact ⟨q, packet, hq⟩
  · intro hpopped
    obtain ⟨q, packet, hq⟩ := hpopped
    have hqp : q ≠ p := fun heq => hp packet (heq ▸ hq)
    exact ⟨q, packet, by rw [goto_pc, Function.update_of_ne hqp, hq]⟩

/-! ### The ledger, one action at a time -/

/-- A move of the owner that leaves its packet in the queue leaves the ledger as it is. -/
theorem Ledger.goto {tr : List (State τ × Action τ)} {s : State τ} {B : Finset τ}
    (h : Ledger tr s B) {a : Action τ} {p : Party τ} {f : Point τ}
    (ha : lostExchange (s, a) = false) (hp : ∀ packet, s.pc p ≠ .release packet)
    (hf : ∀ packet, f ≠ .release packet) (hpcas : s.pc p ≠ .compareExchange)
    (hfcas : f ≠ .compareExchange) : Ledger (tr ++ [(s, a)]) (s.goto p f) B where
  between := between_goto h.between hpcas hfcas
  settled := by
    rw [popped_goto hp hf, List.countP_append, List.countP_singleton, ha]
    exact h.settled
  owing := by
    rw [popped_goto hp hf, List.countP_append, List.countP_singleton, ha]
    exact h.owing

/-- One packet more, one thread more that has not come to its exchange. -/
theorem ledger_enqueue {tr : List (State τ × Action τ)} {s : State τ} {B : Finset τ}
    (h : Ledger tr s B) {t : τ} {data : Bytes} (hen : Enabled s (.enqueue t data)) :
    Ledger (tr ++ [(s, .enqueue t data)]) (next s (.enqueue t data)) (insert t B) := by
  have hpc : s.pc (.send t) = .idle := hen
  have hpop : Popped (next s (.enqueue t data)) ↔ Popped s :=
    popped_goto (p := .send t) (f := .compareExchange) (by simp [hpc]) (by simp)
  have hfresh : t ∉ B := by
    intro hm
    rw [h.between t, hpc] at hm
    simp at hm
  have hlost : (tr ++ [(s, Action.enqueue t data)]).countP lostExchange
      = tr.countP lostExchange := by
    simp [List.countP_append, lostExchange]
  have hlen : (next s (.enqueue t data)).sendQueue.pending.length
      = s.sendQueue.pending.length + 1 := by simp [next]
  refine ⟨fun u => ?_, fun hs => ?_, fun hw hno => ?_⟩
  · show u ∈ insert t B ↔ Function.update s.pc (.send t) .compareExchange (.send u) = _
    by_cases hut : u = t
    · subst hut
      simp
    · rw [Function.update_of_ne (by simpa using hut), ← h.between u]
      simp [hut]
  · rw [hlen, hlost, Finset.card_insert_of_notMem hfresh, h.settled (hs.imp id hpop.mp)]
    omega
  · rw [hlen, hlost, Finset.card_insert_of_notMem hfresh, h.owing hw (fun hp => hno (hpop.mpr hp))]
    omega

/-- Whatever the exchange finds, its thread leaves `B`. -/
theorem between_erase {s : State τ} {B : Finset τ}
    (h : ∀ t, t ∈ B ↔ s.pc (.send t) = .compareExchange) {t : τ} {f : Point τ}
    (hf : f ≠ .compareExchange) (u : τ) :
    u ∈ B.erase t ↔ Function.update s.pc (.send t) f (.send u) = .compareExchange := by
  by_cases hut : u = t
  · subst hut
    simp [hf]
  · rw [Function.update_of_ne (by simpa using hut), ← h u]
    simp [hut]

/-- One thread less before its exchange, one exchange more that was lost. -/
theorem ledger_exchange_lost {tr : List (State τ × Action τ)} {s : State τ} {B : Finset τ}
    (h : Ledger tr s B) {t : τ} (hen : Enabled s (.compareExchange t)) (hw : s.isWriting = true) :
    Ledger (tr ++ [(s, .compareExchange t)]) (s.goto (.send t) .idle) (B.erase t) := by
  have hpc : s.pc (.send t) = .compareExchange := hen
  have hcard := Finset.card_erase_add_one ((h.between t).mpr hpc)
  have hpop : Popped (s.goto (.send t) .idle) ↔ Popped s := popped_goto (by simp [hpc]) (by simp)
  have hlost : (tr ++ [(s, Action.compareExchange t)]).countP lostExchange
      = tr.countP lostExchange + 1 := by
    simp [List.countP_append, lostExchange, hw]
  refine ⟨between_erase h.between (by simp), fun hs => ?_, fun _ hno => ?_⟩
  · rw [hlost, goto_sendQueue, h.settled (hs.imp id hpop.mp)]
    omega
  · rw [hlost, goto_sendQueue, h.owing hw (fun hp => hno (hpop.mpr hp))]
    omega

/-- One thread less before its exchange; it now owns the chain and owes the queue a removal. -/
theorem ledger_exchange_won {tr : List (State τ × Action τ)} {s : State τ} {B : Finset τ}
    (hc : Chain s) (h : Ledger tr s B) {t : τ} (hen : Enabled s (.compareExchange t))
    (hfree : s.isWriting = false) :
    Ledger (tr ++ [(s, .compareExchange t)])
      { s.goto (.send t) .tryDequeue with isWriting := true } (B.erase t) := by
  have hpc : s.pc (.send t) = .compareExchange := hen
  have hcard := Finset.card_erase_add_one ((h.between t).mpr hpc)
  have hlost : (tr ++ [(s, Action.compareExchange t)]).countP lostExchange
      = tr.countP lostExchange := by
    simp [List.countP_append, lostExchange, hfree]
  have hnopop : ¬Popped (s.goto (.send t) .tryDequeue) := by
    rw [popped_goto (by simp [hpc]) (by simp)]
    intro hpopped
    obtain ⟨q, packet, hq⟩ := hpopped
    have hflag := hc.flagged q (by rw [hq]; trivial)
    rw [hfree] at hflag
    simp at hflag
  refine ⟨between_erase h.between (by simp), fun hs => ?_, fun _ _ => ?_⟩
  · rcases hs with hs | hs
    · simp at hs
    · exact absurd hs hnopop
  · show s.sendQueue.pending.length = _
    rw [hlost, h.settled (Or.inl hfree)]
    omega

/-- The owner takes a packet out and owes nothing any more. -/
theorem ledger_tryDequeueTrue {tr : List (State τ × Action τ)} {s : State τ} {B : Finset τ}
    (hc : Chain s) (h : Ledger tr s B) {p : Party τ} {e : Sent τ}
    (hen : Enabled s (.tryDequeueTrue p e)) :
    Ledger (tr ++ [(s, .tryDequeueTrue p e)]) (next s (.tryDequeueTrue p e)) B := by
  have hcar : Carries (s.pc p) := by rw [hen.1]; trivial
  have hlost : (tr ++ [(s, Action.tryDequeueTrue p e)]).countP lostExchange
      = tr.countP lostExchange := by
    simp [List.countP_append, lostExchange]
  have hlen := ProducerQueue.dequeueFrom_pending_length hen.2
  have howing := h.owing (hc.flagged p hcar) (not_popped hc hcar (by simp [hen.1]))
  have hpopped : Popped (next s (.tryDequeueTrue p e)) :=
    ⟨p, some e, Function.update_self ..⟩
  refine ⟨between_goto (f := .release (some e)) h.between (by simp [hen.1]) (by simp),
    fun _ => ?_, fun _ hno => absurd hpopped hno⟩
  show (s.sendQueue.dequeueFrom e.producer).pending.length = _
  rw [hlost]
  omega

/-- The owner that took its packet out lets the chain go. -/
theorem ledger_release {tr : List (State τ × Action τ)} {s : State τ} {B : Finset τ}
    (h : Ledger tr s B) {p : Party τ} {packet : Packet τ}
    (hen : Enabled s (.release p packet)) :
    Ledger (tr ++ [(s, .release p packet)]) (next s (.release p packet)) B := by
  have hpc : s.pc p = .release packet := hen
  have hlost : (tr ++ [(s, Action.release p packet)]).countP lostExchange
      = tr.countP lostExchange := by
    simp [List.countP_append, lostExchange]
  refine ⟨between_goto (f := .idle) h.between (by simp [hpc]) (by simp), fun _ => ?_, ?_⟩
  · show s.sendQueue.pending.length = _
    rw [hlost, h.settled (Or.inr ⟨p, packet, hpc⟩)]
  · simp [next]

/-- The owner passes the chain on to the write it starts. -/
theorem ledger_asyncWrite {tr : List (State τ × Action τ)} {s : State τ} {B : Finset τ}
    (hc : Chain s) (h : Ledger tr s B) {p : Party τ} {packet : Packet τ}
    (hen : Enabled s (.asyncWrite p packet)) :
    Ledger (tr ++ [(s, .asyncWrite p packet)]) (next s (.asyncWrite p packet)) B := by
  have hpc : s.pc p = .asyncWrite packet := hen
  have hcar : Carries (s.pc p) := by rw [hpc]; trivial
  have hw : s.isWriting = true := hc.flagged p hcar
  have hc' := chain_next s (.asyncWrite p packet) hc hen
  have hpc' : (next s (.asyncWrite p packet)).pc (.handler s.written.length) = .writing :=
    Function.update_self ..
  have hno : ¬Popped (next s (.asyncWrite p packet)) :=
    not_popped hc' (by rw [hpc']; trivial) (by simp [hpc'])
  have hlost : (tr ++ [(s, Action.asyncWrite p packet)]).countP lostExchange
      = tr.countP lostExchange := by
    simp [List.countP_append, lostExchange]
  refine ⟨fun t => ?_, fun hs => ?_, fun _ _ => ?_⟩
  · have hne : Party.send t ≠ .handler s.written.length := by simp
    have hstay : (next s (.asyncWrite p packet)).pc (.send t) = (s.goto p .idle).pc (.send t) :=
      Function.update_of_ne hne .writing _
    rw [hstay]
    exact between_goto h.between (by simp [hpc]) (by simp) t
  · rcases hs with hs | hs
    · exact absurd (hw.symm.trans hs) (by simp)
    · exact absurd hs hno
  · show s.sendQueue.pending.length = _
    rw [hlost, h.owing hw (not_popped hc hcar (by simp [hpc]))]

theorem ledger_next {tr : List (State τ × Action τ)} {s : State τ} {a : Action τ} {B : Finset τ}
    (hc : Chain s) (h : Ledger tr s B) (hen : Enabled s a) :
    ∃ B', Ledger (tr ++ [(s, a)]) (next s a) B' := by
  cases a with
  | enqueue t data => exact ⟨_, ledger_enqueue h hen⟩
  | compareExchange t =>
      refine ⟨B.erase t, ?_⟩
      simp only [next]
      split
      · exact ledger_exchange_lost h hen (by assumption)
      · exact ledger_exchange_won hc h hen (by simpa using ‹¬s.isWriting = true›)
  | tryDequeueTrue p e => exact ⟨B, ledger_tryDequeueTrue hc h hen⟩
  | tryDequeueFalse p =>
      have hpc : s.pc p = .tryDequeue := hen
      exact ⟨B, h.goto rfl (by simp [hpc]) (by simp) (by simp [hpc]) (by simp)⟩
  | release p packet => exact ⟨B, ledger_release h hen⟩
  | asyncWrite p packet => exact ⟨B, ledger_asyncWrite hc h hen⟩
  | complete n ec =>
      have hpc : s.pc (.handler n) = .writing := hen
      have hmove : ∀ f : Point τ, (∀ packet, f ≠ .release packet) → f ≠ .compareExchange →
          Ledger (tr ++ [(s, .complete n ec)]) (s.goto (.handler n) f) B := fun f hf hfcas =>
        h.goto rfl (by simp [hpc]) hf (by simp [hpc]) hfcas
      refine ⟨B, ?_⟩
      simp only [next]
      split
      · have hd := hmove .disconnect (by simp) (by simp)
        exact ⟨hd.between, hd.settled, hd.owing⟩
      · exact hmove .tryDequeue (by simp) (by simp)
  | disconnect n =>
      have hpc : s.pc (.handler n) = .disconnect := hen
      have hmove : Ledger (tr ++ [(s, .disconnect n)]) (s.goto (.handler n) .failed) B :=
        h.goto rfl (by simp [hpc]) (by simp) (by simp [hpc]) (by simp)
      exact ⟨B, hmove.between, hmove.settled, hmove.owing⟩

theorem ledger_of_run {tr : List (State τ × Action τ)} {s : State τ}
    (hr : (sendPath τ).Run tr s) : ∃ B, Ledger tr s B := by
  induction hr with
  | nil => exact ⟨∅, by simp [sendPath, init], by simp [sendPath, init], by simp [sendPath, init]⟩
  | step h hen ih =>
      obtain ⟨B, hB⟩ := ih
      exact ledger_next (chain_of_run h) hB hen

/-! ### When a packet is stranded -/

/-- **Stranded packets.**  In a state where the chain is free and no `Send` is between its enqueue
and its compare-and-exchange, a packet is left in the queue exactly when some `Send` of the run
found `_isWriting` set. -/
theorem stranded_iff {tr : List (State τ × Action τ)} {s : State τ}
    (hr : (sendPath τ).Run tr s) :
    Stranded s ↔ s.isWriting = false ∧ (∀ t, s.pc (.send t) ≠ .compareExchange) ∧
      ∃ e ∈ tr, lostExchange e = true := by
  obtain ⟨B, hB⟩ := ledger_of_run hr
  have hcount : s.isWriting = false → (∀ t, s.pc (.send t) ≠ .compareExchange) →
      s.sendQueue.pending.length = tr.countP lostExchange := by
    intro hw hno
    have hBnil : B = ∅ :=
      Finset.eq_empty_iff_forall_notMem.mpr fun t ht => hno t ((hB.between t).mp ht)
    rw [hB.settled (Or.inl hw), hBnil, Finset.card_empty, Nat.zero_add]
  refine ⟨?_, ?_⟩
  · intro hstranded
    obtain ⟨hne, hw, hno⟩ := hstranded
    refine ⟨hw, hno, List.countP_pos_iff.mp ?_⟩
    rw [← hcount hw hno]
    exact List.length_pos_iff.mpr hne
  · intro hfree
    obtain ⟨hw, hno, hlost⟩ := hfree
    refine ⟨?_, hw, hno⟩
    rw [← List.length_pos_iff, hcount hw hno]
    exact List.countP_pos_iff.mpr hlost

/-- Two threads send; the second loses the compare-and-exchange to the first. -/
def lostExchangeScript : List (Action Bool) :=
  [.enqueue true [1], .enqueue false [2], .compareExchange true, .compareExchange false,
   .tryDequeueTrue (.send true) ⟨true, 0, [1]⟩, .release (.send true) (some ⟨true, 0, [1]⟩)]

theorem stranded_iff_lost : Stranded ((sendPath Bool).after init lostExchangeScript) := by
  have hadmits : (sendPath Bool).Admits init lostExchangeScript := by decide
  exact (stranded_iff (run_of_admits hadmits)).mpr (by decide)

/-- The packet of the second thread stays behind. -/
theorem second_send_stranded :
    (sendPath Bool).Admits init lostExchangeScript ∧
    (∀ e ∈ (sendPath Bool).trace init lostExchangeScript, ∀ n ec, e.2 = .complete n ec →
      ec.failed = false) ∧
    Stranded ((sendPath Bool).after init lostExchangeScript) := by
  refine ⟨by decide, by simp [lostExchangeScript, System.trace], ?_, ?_, ?_⟩
  · decide
  · decide
  · decide

end Core.SessionBase
