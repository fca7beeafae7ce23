/-
Who owns the write chain.

Ownership is never written down in the code.  It is taken by the compare-and-exchange of
`Send`, carried through `WriteAsync` and the outstanding `async_write` into the completion
handler, and given back by the store `_isWriting = false`.  Here it is a token: a party
holds it while it stands at one of the points between those two.

An error completion never gives the token back.  The handler returns after `Disconnect`
with `_isWriting` still true, and the proof keeps the token with that handler for good.
That single fact is why nothing is written after an error and why `Disconnect` is called at
most once: a second write, or a second failure, would need a second token.
-/
import Cube.Core.Session.SessionBase

namespace Core.SessionBase

open Library System

variable {τ : Type}

/-- The points at which a party owns the write chain: a `Send` that won the
compare-and-exchange and has not released, an outstanding `async_write`, a handler that runs
`WriteAsync`. -/
def Owns : Point τ → Prop
  | .tryDequeue | .release _ | .asyncWrite _ | .writing => True
  | .idle | .compareExchange | .disconnect | .failed => False

/-- The points that hold the token: those of an owner, and those of a handler that failed. -/
def Carries : Point τ → Prop
  | .idle | .compareExchange => False
  | .tryDequeue | .release _ | .asyncWrite _ | .writing | .disconnect | .failed => True

theorem Owns.carries {f : Point τ} (h : Owns f) : Carries f := by
  cases f <;> simp_all [Owns, Carries]

variable [DecidableEq τ]

/-- What every reachable state of the send path satisfies. -/
structure Chain (s : State τ) : Prop where
  single : AtMostOne Carries s.pc
  flagged : ∀ p, Carries (s.pc p) → s.isWriting = true
  calm : (∀ p, s.pc p ≠ .failed) → s.disconnects = 0
  once : s.disconnects ≤ 1

/-- A move that takes no token and neither enters nor leaves `failed`. -/
theorem Chain.goto {s : State τ} (h : Chain s) {p : Party τ} {f : Point τ}
    (hf : Carries f → Carries (s.pc p)) (hp : s.pc p ≠ .failed) : Chain (s.goto p f) where
  single := by
    by_cases hc : Carries f
    · exact h.single.keep (hf hc)
    · exact h.single.drop hc
  flagged := by
    intro q hq
    rcases holds_update hq with hc | ⟨-, hc⟩
    · exact h.flagged p (hf hc)
    · exact h.flagged q hc
  calm := by
    intro hno
    refine h.calm fun q hq => ?_
    by_cases hqp : q = p
    · exact hp (hqp ▸ hq)
    · exact hno q (by rw [goto_pc, Function.update_of_ne hqp, hq])
  once := h.once

/-- After the holder has let go, nobody holds. -/
theorem Chain.not_carries_of_drop {s : State τ} (h : Chain s) {p : Party τ} {f : Point τ}
    (hp : Carries (s.pc p)) (hf : ¬Carries f) (q : Party τ) :
    ¬Carries (Function.update s.pc p f q) := by
  intro hq
  rcases holds_update hq with hc | ⟨hne, hc⟩
  · exact hf hc
  · exact hne (h.single q p hc hp)

theorem chain_init : Chain (init : State τ) where
  single := fun _ _ ha _ => absurd ha (by simp [init, Carries])
  flagged := fun _ hp => absurd hp (by simp [init, Carries])
  calm := fun _ => rfl
  once := Nat.zero_le 1

theorem chain_next (s : State τ) (a : Action τ) (h : Chain s) (hen : Enabled s a) :
    Chain (next s a) := by
  cases a with
  | enqueue t data =>
      have hmove : Chain (s.goto (.send t) .compareExchange) :=
        h.goto (by simp [Carries]) (by rw [hen]; simp)
      exact ⟨hmove.single, hmove.flagged, hmove.calm, hmove.once⟩
  | compareExchange t =>
      have hpc : s.pc (.send t) = .compareExchange := hen
      simp only [next]
      split
      · exact h.goto (by simp [Carries]) (by rw [hpc]; simp)
      · rename_i hfree
        -- the flag is down, so the token is free and this thread takes it
        have hnone : ∀ q, ¬Carries (s.pc q) := fun q hq => hfree (h.flagged q hq)
        refine ⟨h.single.take hnone, fun _ _ => rfl, fun _ => h.calm ?_, h.once⟩
        intro q hq
        exact hnone q (by rw [hq]; trivial)
  | tryDequeueTrue p e =>
      have hmove : Chain (s.goto p (.release (some e))) :=
        h.goto (by rw [hen.1]; simp [Carries]) (by rw [hen.1]; simp)
      exact ⟨hmove.single, hmove.flagged, hmove.calm, hmove.once⟩
  | tryDequeueFalse p =>
      have hpc : s.pc p = .tryDequeue := hen
      exact h.goto (by rw [hpc]; simp [Carries]) (by rw [hpc]; simp)
  | release p packet =>
      have hpc : s.pc p = .release packet := hen
      have hmove : Chain (s.goto p .idle) := h.goto (by simp [Carries]) (by rw [hpc]; simp)
      have hnone := h.not_carries_of_drop (p := p) (f := .idle) (by rw [hpc]; trivial)
        (by simp [Carries])
      exact ⟨hmove.single, fun q hq => absurd hq (hnone q), hmove.calm, hmove.once⟩
  | asyncWrite p packet =>
      have hpc : s.pc p = .asyncWrite packet := hen
      have hcar : Carries (s.pc p) := by rw [hpc]; trivial
      refine ⟨h.single.transfer hcar (by simp [Carries]), fun _ _ => h.flagged p hcar, ?_, h.once⟩
      -- a failed handler would hold a second token
      refine fun _ => h.calm fun q hq => ?_
      have hqp : q = p := h.single q p (by rw [hq]; trivial) hcar
      rw [hqp, hpc] at hq
      simp at hq
  | complete n ec =>
      have hpc : s.pc (.handler n) = .writing := hen
      simp only [next]
      split
      · have hmove : Chain (s.goto (.handler n) .disconnect) :=
          h.goto (by rw [hpc]; simp [Carries]) (by rw [hpc]; simp)
        exact ⟨hmove.single, hmove.flagged, hmove.calm, hmove.once⟩
      · exact h.goto (by rw [hpc]; simp [Carries]) (by rw [hpc]; simp)
  | disconnect n =>
      have hpc : s.pc (.handler n) = .disconnect := hen
      have hcar : Carries (s.pc (.handler n)) := by rw [hpc]; trivial
      have hzero : s.disconnects = 0 := by
        refine h.calm fun q hq => ?_
        have hqn : q = .handler n := h.single q _ (by rw [hq]; trivial) hcar
        rw [hqn, hpc] at hq
        simp at hq
      refine ⟨h.single.keep hcar, ?_, ?_, ?_⟩
      · intro q hq
        rcases holds_update hq with - | ⟨-, hc⟩
        · exact h.flagged _ hcar
        · exact h.flagged q hc
      · intro hno
        exact absurd (Function.update_self ..) (hno (.handler n))
      · show s.disconnects + 1 ≤ 1
        omega

/-- Every reachable state has at most one token, under a raised flag. -/
theorem chain_of_run {tr : List (State τ × Action τ)} {s : State τ}
    (hr : (sendPath τ).Run tr s) : Chain s :=
  hr.invariant chain_init chain_next

/-! ### Nothing is written after an error -/

/-- The write of handler `n` completed with an error. -/
def Broken (n : Nat) (s : State τ) : Prop :=
  s.pc (.handler n) = .disconnect ∨ s.pc (.handler n) = .failed

theorem Broken.carries {n : Nat} {s : State τ} (h : Broken n s) :
    Carries (s.pc (.handler n)) := by
  rcases h with hd | hf
  · rw [hd]; trivial
  · rw [hf]; trivial

/-- A broken handler holds the token, so no other party can be about to write. -/
theorem Broken.no_asyncWrite {n : Nat} {s : State τ} (hb : Broken n s) (hc : Chain s)
    {p : Party τ} {packet : Packet τ} : ¬Enabled s (.asyncWrite p packet) := by
  intro hen
  have hpc : s.pc p = .asyncWrite packet := hen
  have hpn : p = .handler n := hc.single p _ (by rw [hpc]; trivial) hb.carries
  rw [hpn] at hpc
  rcases hb with hd | hf
  · rw [hd] at hpc; simp at hpc
  · rw [hf] at hpc; simp at hpc

theorem broken_goto {n : Nat} {s : State τ} (hb : Broken n s) {p : Party τ} {f : Point τ}
    (hp : p ≠ .handler n) : Broken n (s.goto p f) := by
  simpa [Broken, Function.update_of_ne (Ne.symm hp)] using hb

theorem broken_next {n : Nat} {s : State τ} {a : Action τ} (hc : Chain s) (hb : Broken n s)
    (hen : Enabled s a) : Broken n (next s a) := by
  -- a step that is not the handler's own leaves it where it stands
  have hother : ∀ p : Party τ, s.pc p ≠ .disconnect → s.pc p ≠ .failed → p ≠ .handler n := by
    intro p hd hf heq
    subst heq
    exact hb.elim hd hf
  cases a with
  | enqueue t data => exact broken_goto hb (p := .send t) (f := .compareExchange) (by simp)
  | compareExchange t =>
      simp only [next]
      split
      · exact broken_goto hb (by simp)
      · exact broken_goto hb (p := .send t) (f := .tryDequeue) (by simp)
  | tryDequeueTrue p e =>
      exact broken_goto hb (hother p (by rw [hen.1]; simp) (by rw [hen.1]; simp))
  | tryDequeueFalse p =>
      have hpc : s.pc p = .tryDequeue := hen
      exact broken_goto hb (hother p (by rw [hpc]; simp) (by rw [hpc]; simp))
  | release p packet =>
      have hpc : s.pc p = .release packet := hen
      exact broken_goto hb (hother p (by rw [hpc]; simp) (by rw [hpc]; simp))
  | asyncWrite p packet => exact absurd hen (hb.no_asyncWrite hc)
  | complete m ec =>
      have hpc : s.pc (.handler m) = .writing := hen
      have hne := hother (.handler m) (by rw [hpc]; simp) (by rw [hpc]; simp)
      simp only [next]
      split
      · exact broken_goto hb hne
      · exact broken_goto hb hne
  | disconnect m =>
      by_cases hmn : m = n
      · subst hmn
        exact Or.inr (Function.update_self ..)
      · exact broken_goto hb (by simpa using hmn)

/-- Once a write has completed with an error, no later step starts an `async_write`. -/
theorem no_asyncWrite_after_error {tr : List (State τ × Action τ)} {s : State τ}
    (hr : (sendPath τ).Run tr s) {pre post : List (State τ × Action τ)} {s₁ : State τ} {n : Nat}
    {ec : ErrorCode} (htr : tr = pre ++ (s₁, .complete n ec) :: post) (hec : ec.failed = true)
    {e : State τ × Action τ} (he : e ∈ post) (p : Party τ) (packet : Packet τ) :
    e.2 ≠ .asyncWrite p packet := by
  intro hact
  obtain ⟨mid, rest, rfl⟩ := List.append_of_mem he
  have hcut : tr = pre ++ (s₁, .complete n ec) :: (mid ++ (e.1, .asyncWrite p packet) :: rest) := by
    rw [htr, ← hact]
  obtain ⟨_, _, hfalse⟩ := hr.separated (Q := fun s => Broken n s ∧ Chain s) (b := fun _ => False)
    (fun hen => by
      have hchain : Chain s₁ := chain_of_run (hr.split htr).1
      refine ⟨Or.inl ?_, chain_next s₁ (.complete n ec) hchain hen⟩
      simp [sendPath, next, hec])
    (fun s a _ hQ hen _ => ⟨broken_next hQ.2 hQ.1 hen, chain_next s a hQ.2 hen⟩)
    (fun hQ => hQ.1.no_asyncWrite hQ.2) hcut
  exact hfalse

/-- **One owner, and none after an error.**  In every state a run reaches, at most one party owns
the write chain and `_isWriting` is true while there is one; so two `async_write` operations are
never outstanding together.  After a write has completed with an error no `async_write` is
started again, and the write path calls `Disconnect` at most once. -/
theorem single_owner_fail_stop {tr : List (State τ × Action τ)} {s : State τ}
    (hr : (sendPath τ).Run tr s) :
    (∀ p q, Owns (s.pc p) → Owns (s.pc q) → p = q) ∧
    (∀ p, Owns (s.pc p) → s.isWriting = true) ∧
    (∀ m n, s.pc (.handler m) = .writing → s.pc (.handler n) = .writing → m = n) ∧
    (∀ pre post s₁ n ec, tr = pre ++ (s₁, .complete n ec) :: post → ec.failed = true →
      ∀ e ∈ post, ∀ p packet, e.2 ≠ .asyncWrite p packet) ∧
    s.disconnects ≤ 1 := by
  have hc := chain_of_run hr
  refine ⟨?_, ?_, ?_, ?_, hc.once⟩
  · intro p q hp hq
    exact hc.single p q hp.carries hq.carries
  · intro p hp
    exact hc.flagged p hp.carries
  · intro m n hm hn
    have heq := hc.single (.handler m) (.handler n) (by rw [hm]; trivial) (by rw [hn]; trivial)
    simpa using heq
  · intro pre post s₁ n ec htr hec e he p packet
    exact no_asyncWrite_after_error hr htr hec he p packet

/-- A write fails, and another thread sends afterwards. -/
def resetScript : List (Action Bool) :=
  [.enqueue true [1], .compareExchange true, .tryDequeueFalse (.send true),
   .asyncWrite (.send true) none, .complete 0 ⟨104, "Connection reset by peer"⟩, .disconnect 0,
   .enqueue false [2], .compareExchange false]

theorem single_owner_fail_stop_reset :
    (sendPath Bool).Admits init resetScript ∧
      ((sendPath Bool).after init resetScript).disconnects ≤ 1 :=
  have hadmits : (sendPath Bool).Admits init resetScript := by decide
  ⟨hadmits, (single_owner_fail_stop (run_of_admits hadmits)).2.2.2.2⟩

end Core.SessionBase
