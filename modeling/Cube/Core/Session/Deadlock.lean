/-
Who waits for whom at the manager's mutex.

A thread whose callback calls the manager waits for the mutex it holds itself.  From then on, and in
fact from the moment on at which it entered `FuncToAll` with such a callback still to come, the
mutex is not freed any more: the table stays as it is, and every thread at the head of a member
stays there.  Nothing else goes wrong.  While no thread is doomed in this way the mutex can always
be freed, and every call can return whose callbacks leave the manager alone.
-/
import Cube.Core.Session.SharedManager

namespace Core.SharedSessionManager

open Library System
open Core.SessionManager (Program aloneEach)

variable {κ τ ω : Type} [UnorderedMap κ UInt64 Session]

/-- The thread is in a callback that waits for its own mutex, or one of the callbacks still to come
will be. -/
def Doomed : Point ω → Prop
  | .blocked => True
  | .each func _ rest vars => aloneEach func rest vars = none
  | _ => False

/-- The member that a thread at this point is at the head of. -/
def Point.waiting : Point ω → Option (Member ω)
  | .lock m => some m
  | _ => none

theorem Point.waiting_eq {p : Point ω} {m : Member ω} : p.waiting = some m ↔ p = .lock m := by
  cases p with
  | lock m' => exact Option.some_inj.trans ⟨congrArg _, Point.lock.inj⟩
  | outside | change c | find i | each func called rest vars | blocked | unlock res
  | returned res =>
      refine ⟨?_, ?_⟩ <;> intro h <;> cases h

/-- The member calls no callback that uses the manager. -/
def Member.Tolerated : Member ω → Prop
  | .funcToAll func _ => ∀ (session : Session) (vars : ω), ((func session).alone vars).isSome
  | _ => True

/-! ### A doomed thread -/

theorem Doomed.inside {p : Point ω} (h : Doomed p) : Inside p := by
  cases p with
  | each func called rest vars | blocked => trivial
  | outside | lock m | change c | find i | unlock res | returned res => exact absurd h id

/-- It never gets out of the callbacks. -/
theorem Doomed.advance {p : Point ω} (h : Doomed p) (t : Sessions κ) : Doomed (p.advance t) := by
  cases p with
  | blocked => trivial
  | outside | lock m | change c | find i | unlock res | returned res => exact absurd h id
  | each func called rest vars =>
      cases rest with
      | nil => cases h
      | cons session rest =>
          have hnone : ((func session).alone vars).bind (aloneEach func rest) = none := h
          cases hvars : (func session).alone vars with
          | none =>
              rw [advance_blocks hvars]
              trivial
          | some vars' =>
              rw [advance_returns hvars]
              rw [hvars] at hnone
              exact hnone

/-- It neither writes to the table nor unlocks the mutex. -/
theorem Doomed.write {p : Point ω} (h : Doomed p) (t : Sessions κ) : p.write t = t := by
  cases p with
  | each func called rest vars | blocked => rfl
  | outside | lock m | change c | find i | unlock res | returned res => exact absurd h id

theorem Doomed.hold {p : Point ω} (h : Doomed p) (t : τ) (mutex : Option τ) :
    p.hold t mutex = mutex := by
  cases p with
  | each func called rest vars | blocked => rfl
  | outside | lock m | change c | find i | unlock res | returned res => exact absurd h id

/-- While the mutex is taken, a thread outside neither writes to the table nor gets the mutex. -/
theorem idle_of_taken {p : Point ω} {mutex : Option τ} (hout : ¬Inside p)
    (htaken : mutex ≠ none) : ¬p.Ready mutex := by
  cases p with
  | outside | returned res => exact id
  | lock m => exact htaken
  | change c | find i | each func called rest vars | blocked | unlock res =>
      exact absurd trivial hout

/-- What a doomed thread does to everybody: the mutex is taken, the table is `table`, and the
threads in `waiting` stand at the head of their members. -/
structure Jammed (t : τ) (table : Sessions κ) (waiting : τ → Option (Member ω)) (s : State κ τ ω) :
    Prop where
  doomed : Doomed (s.pc t)
  locked : Locked Inside s.pc s.mutex
  sessions : s.sessions = table
  waits : ∀ u m, waiting u = some m → s.pc u = .lock m

theorem Jammed.mutex {t : τ} {table : Sessions κ} {waiting : τ → Option (Member ω)}
    {s : State κ τ ω} (h : Jammed t table waiting s) : s.mutex = some t :=
  (h.locked t).mp h.doomed.inside

variable [DecidableEq τ]

/-- A step of another thread that changes neither the table nor who waits. -/
theorem Jammed.move {t u : τ} {table : Sessions κ} {waiting : τ → Option (Member ω)}
    {s : State κ τ ω} (h : Jammed t table waiting s) {a : Action τ ω} {f : Point ω}
    (hnext : next s a = s.goto u f) (hen : Enabled s a) (hu : ¬Inside (s.pc u))
    (hwaits : ∀ m, s.pc u ≠ .lock m) : Jammed t table waiting (next s a) := by
  have hlocked := locked_next h.locked hen
  have htu : t ≠ u := by
    intro heq
    exact hu (heq ▸ h.doomed.inside)
  rw [hnext] at hlocked ⊢
  refine ⟨?_, hlocked, h.sessions, ?_⟩
  · show Doomed (Function.update s.pc u f t)
    rw [Function.update_of_ne htu]
    exact h.doomed
  · intro v m hv
    have hpc := h.waits v m hv
    have hvu : v ≠ u := by
      intro heq
      exact hwaits m (heq ▸ hpc)
    show Function.update s.pc u f v = .lock m
    rw [Function.update_of_ne hvu]
    exact hpc

theorem jammed_next {t : τ} {table : Sessions κ} {waiting : τ → Option (Member ω)} {s : State κ τ ω}
    (h : Jammed t table waiting s) {a : Action τ ω} (hen : Enabled s a) :
    Jammed t table waiting (next s a) := by
  cases a with
  | invoke u m =>
      have hpc : s.pc u = .outside := hen
      exact h.move rfl hen (by simp [hpc, Inside]) (by simp [hpc])
  | respond u res =>
      have hpc : s.pc u = .returned res := hen
      exact h.move rfl hen (by simp [hpc, Inside]) (by simp [hpc])
  | step u =>
      have hlocked := locked_next h.locked hen
      -- only the holder can move, and that is the doomed thread
      have hut : u = t := by
        by_contra hne
        have hout : ¬Inside (s.pc u) := fun hin => hne (h.locked.exclusive hin h.doomed.inside)
        exact idle_of_taken hout (by simp [h.mutex]) hen
      subst hut
      rw [next_step] at hlocked ⊢
      refine ⟨?_, hlocked, ?_, ?_⟩
      · show Doomed (Function.update s.pc u ((s.pc u).advance s.sessions) u)
        rw [Function.update_self]
        exact h.doomed.advance s.sessions
      · exact (h.doomed.write s.sessions).trans h.sessions
      · intro v m hv
        have hpc := h.waits v m hv
        have hvu : v ≠ u := by
          intro heq
          subst heq
          have hin := h.doomed.inside
          rw [hpc] at hin
          exact hin
        show Function.update s.pc u _ v = .lock m
        rw [Function.update_of_ne hvu]
        exact hpc

/-! ### Everybody else -/

/-- The action goes on with a call that was made before. -/
def Action.Continues : Action τ ω → Prop
  | .invoke _ _ => False
  | _ => True

/-- Without new calls, `s'` can follow `s`. -/
def Proceeds (s s' : State κ τ ω) : Prop :=
  ∃ acts, (∀ a ∈ acts, a.Continues) ∧ (sharedManager κ τ ω).Admits s acts ∧
    (sharedManager κ τ ω).after s acts = s'

theorem Proceeds.trans {s s' s'' : State κ τ ω} (h : Proceeds s s') (h' : Proceeds s' s'') :
    Proceeds s s'' := by
  obtain ⟨acts, hall, hadm, rfl⟩ := h
  obtain ⟨acts', hall', hadm', rfl⟩ := h'
  refine ⟨acts ++ acts', ?_, admits_append hadm hadm', after_append acts acts' s⟩
  intro a ha
  rcases List.mem_append.mp ha with hfirst | hsecond
  · exact hall a hfirst
  · exact hall' a hsecond

theorem Proceeds.single {s : State κ τ ω} {a : Action τ ω} (hen : Enabled s a)
    (ha : a.Continues) : Proceeds s (next s a) := by
  refine ⟨[a], ?_, ⟨hen, trivial⟩, rfl⟩
  intro b hb
  rw [List.mem_singleton.mp hb]
  exact ha

/-- Thread `t` can go on until it has unlocked the mutex, and nobody else moves. -/
def Unlocks (t : τ) (s : State κ τ ω) : Prop :=
  ∃ s' res, Proceeds s s' ∧ s'.mutex = none ∧ s'.pc t = .returned res ∧
    ∀ u, u ≠ t → s'.pc u = s.pc u

/-- Thread `t` takes its next statement and goes on from there. -/
theorem Unlocks.step {t : τ} {s : State κ τ ω} (hready : (s.pc t).Ready s.mutex)
    (h : Unlocks t (next s (.step t))) : Unlocks t s := by
  obtain ⟨s', res, hproceeds, hfree, hpc, hothers⟩ := h
  refine ⟨s', res, (Proceeds.single (a := .step t) hready trivial).trans hproceeds, hfree, hpc, ?_⟩
  intro u hu
  rw [hothers u hu, next_step]
  exact Function.update_of_ne hu ..

theorem next_step_pc (s : State κ τ ω) (t : τ) :
    (next s (.step t)).pc t = (s.pc t).advance s.sessions := Function.update_self ..

theorem unlocks_unlock {t : τ} {s : State κ τ ω} {res : Result ω} (hpc : s.pc t = .unlock res) :
    Unlocks t s := by
  have hready : (s.pc t).Ready s.mutex := by
    rw [hpc]
    trivial
  refine ⟨next s (.step t), res, Proceeds.single (a := .step t) hready trivial, ?_, ?_, ?_⟩
  · show (s.pc t).hold t s.mutex = none
    rw [hpc]
    rfl
  · rw [next_step_pc, hpc]
    rfl
  · intro u hu
    exact Function.update_of_ne hu ..

/-- The loop of `FuncToAll`, if none of the callbacks to come uses the manager. -/
theorem unlocks_each {t : τ} {func : Session → Program ω} (rest : List Session) :
    ∀ {s : State κ τ ω} {called : List Session} {vars : ω}, s.pc t = .each func called rest vars →
      aloneEach func rest vars ≠ none → Unlocks t s := by
  induction rest with
  | nil =>
      intro s called vars hpc _
      apply Unlocks.step (by rw [hpc]; trivial)
      have hunlock : (next s (.step t)).pc t = .unlock (.called called vars) := by
        rw [next_step_pc, hpc]
        rfl
      exact unlocks_unlock hunlock
  | cons session rest ih =>
      intro s called vars hpc halone
      have halone' : ((func session).alone vars).bind (aloneEach func rest) ≠ none := halone
      apply Unlocks.step (by rw [hpc]; trivial)
      cases hvars : (func session).alone vars with
      | none =>
          rw [hvars] at halone'
          exact absurd rfl halone'
      | some vars' =>
          rw [hvars] at halone'
          have hrest : (next s (.step t)).pc t
              = .each func (called ++ [session]) rest vars' := by
            rw [next_step_pc, hpc, advance_returns hvars]
          exact ih hrest halone'

/-- A thread that holds the mutex and is not doomed unlocks it. -/
theorem unlocks_of_inside {t : τ} {s : State κ τ ω} (hin : Inside (s.pc t))
    (hd : ¬Doomed (s.pc t)) : Unlocks t s := by
  cases hpc : s.pc t with
  | outside | lock m | returned res =>
      rw [hpc] at hin
      exact absurd hin id
  | blocked =>
      rw [hpc] at hd
      exact absurd trivial hd
  | unlock res => exact unlocks_unlock hpc
  | change c =>
      apply Unlocks.step (by rw [hpc]; trivial)
      have hunlock : (next s (.step t)).pc t = .unlock .done := by
        rw [next_step_pc, hpc]
        rfl
      exact unlocks_unlock hunlock
  | find i =>
      apply Unlocks.step (by rw [hpc]; trivial)
      have hunlock : (next s (.step t)).pc t = .unlock (.found (s.sessions.find i)) := by
        rw [next_step_pc, hpc]
        rfl
      exact unlocks_unlock hunlock
  | each func called rest vars =>
      rw [hpc] at hd
      exact unlocks_each rest hpc hd

/-- Whoever holds the mutex can give it back, and nobody else moves meanwhile. -/
theorem proceeds_free {s : State κ τ ω} (hlocked : Locked Inside s.pc s.mutex)
    (hd : ∀ t, ¬Doomed (s.pc t)) :
    ∃ s', Proceeds s s' ∧ s'.mutex = none ∧ ∀ u, ¬Inside (s.pc u) → s'.pc u = s.pc u := by
  cases hmutex : s.mutex with
  | none => exact ⟨s, ⟨[], by simp, trivial, rfl⟩, hmutex, fun _ _ => rfl⟩
  | some t =>
      have hin : Inside (s.pc t) := (hlocked t).mpr hmutex
      obtain ⟨s', res, hproceeds, hfree, _, hothers⟩ := unlocks_of_inside hin (hd t)
      refine ⟨s', hproceeds, hfree, ?_⟩
      intro u hu
      apply hothers
      intro heq
      exact hu (heq ▸ hin)

theorem aloneEach_ne_none {func : Session → Program ω}
    (h : ∀ session vars, ((func session).alone vars).isSome) (sessions : List Session) :
    ∀ vars : ω, aloneEach func sessions vars ≠ none := by
  induction sessions with
  | nil => intro vars; exact Option.some_ne_none vars
  | cons session rest ih =>
      intro vars
      obtain ⟨vars', hvars⟩ := Option.isSome_iff_exists.mp (h session vars)
      unfold aloneEach
      rw [hvars]
      exact ih vars'

theorem not_doomed_entry {m : Member ω} (h : m.Tolerated) (table : Sessions κ) :
    ¬Doomed (m.entry table) := by
  cases m with
  | change c => exact id
  | findBySessionId i => exact id
  | funcToAll func vars => exact aloneEach_ne_none h table.registered vars

/-- A thread that has unlocked the mutex returns. -/
theorem Unlocks.returns {t : τ} {s : State κ τ ω} (h : Unlocks t s) :
    ∃ s', Proceeds s s' ∧ s'.pc t = .outside := by
  obtain ⟨s', res, hproceeds, _, hpc, _⟩ := h
  refine ⟨next s' (.respond t res), hproceeds.trans (Proceeds.single hpc trivial), ?_⟩
  exact Function.update_self ..

/-- A doomed thread stops everybody who is at the head of a member, for good. -/
theorem Doomed.jams {t : τ} {s : State κ τ ω} (hd : Doomed (s.pc t))
    (hlocked : Locked Inside s.pc s.mutex) {acts : List (Action τ ω)}
    (hadm : (sharedManager κ τ ω).Admits s acts) :
    Jammed t s.sessions (fun u => (s.pc u).waiting) ((sharedManager κ τ ω).after s acts) := by
  have hstart : Jammed t s.sessions (fun u => (s.pc u).waiting) s :=
    ⟨hd, hlocked, rfl, fun _ _ hu => Point.waiting_eq.mp hu⟩
  exact Admits.invariant (I := Jammed t s.sessions fun u => (s.pc u).waiting)
    (fun _ _ h hen => jammed_next h hen) hadm hstart

/-- A call at the head of a member returns, if whoever holds the mutex gives it back. -/
theorem returns_of_lock {t : τ} {m : Member ω} {s : State κ τ ω} (hpc : s.pc t = .lock m)
    (htol : m.Tolerated) (hlocked : Locked Inside s.pc s.mutex) (hd : ∀ u, ¬Doomed (s.pc u)) :
    ∃ s', Proceeds s s' ∧ s'.pc t = .outside := by
  obtain ⟨s₁, hproceeds, hfree, hothers⟩ := proceeds_free hlocked hd
  have hpc₁ : s₁.pc t = .lock m := by
    rw [hothers t (by rw [hpc]; exact id), hpc]
  have hentry : (next s₁ (.step t)).pc t = m.entry s₁.sessions := by
    rw [next_step_pc, hpc₁]
    rfl
  have hunlocks : Unlocks t s₁ := by
    apply Unlocks.step (by rw [hpc₁]; exact hfree)
    apply unlocks_of_inside
    · rw [hentry]
      exact entry_inside m s₁.sessions
    · rw [hentry]
      exact not_doomed_entry htol s₁.sessions
  obtain ⟨s', hproceeds', hout⟩ := hunlocks.returns
  exact ⟨s', hproceeds.trans hproceeds', hout⟩

/-- **Who waits forever.**  In every state that is reached: a doomed thread keeps the mutex forever,
the table does not change any more, and no thread at the head of a member gets further.  While no
thread is doomed, every call can return, if its callbacks leave the manager alone. -/
theorem calls_return_or_jam {tr : List (State κ τ ω × Action τ ω)} {s : State κ τ ω}
    (hr : (sharedManager κ τ ω).Run tr s) :
    (∀ t, Doomed (s.pc t) → ∀ acts, (sharedManager κ τ ω).Admits s acts →
      ((sharedManager κ τ ω).after s acts).mutex = some t ∧
      ((sharedManager κ τ ω).after s acts).sessions = s.sessions ∧
      ∀ u m, s.pc u = .lock m → ((sharedManager κ τ ω).after s acts).pc u = .lock m) ∧
    ((∀ t, ¬Doomed (s.pc t)) → ∀ t, (∀ m, s.pc t = .lock m → m.Tolerated) →
      ∃ s', Proceeds s s' ∧ s'.pc t = .outside) := by
  have hlocked := locked_of_run hr
  refine ⟨?_, ?_⟩
  · intro t hd acts hadm
    have hjam := hd.jams hlocked hadm
    refine ⟨hjam.mutex, hjam.sessions, ?_⟩
    intro u m hpc
    exact hjam.waits u m (Point.waiting_eq.mpr hpc)
  · intro hd t htol
    cases hpc : s.pc t with
    | outside => exact ⟨s, ⟨[], by simp, trivial, rfl⟩, hpc⟩
    | returned res =>
        have hen : Enabled s (.respond t res) := hpc
        exact ⟨next s (.respond t res), Proceeds.single hen trivial, Function.update_self ..⟩
    | change c | find i | each func called rest vars | blocked | unlock res =>
        have hin : Inside (s.pc t) := by
          rw [hpc]
          trivial
        exact (unlocks_of_inside hin (hd t)).returns
    | lock m => exact returns_of_lock hpc (htol m hpc) hlocked hd

/-- A broadcast that will drop the session it is called for, and a lookup that waits for it. -/
def dropInBroadcast : List (Action Bool Unit) :=
  [.invoke true (.change (.add ⟨1, 7⟩)), .step true, .step true, .step true, .respond true .done,
    .invoke false (.funcToAll (fun session => .call (.remove session) .done) ()), .step false,
    .invoke true (.findBySessionId 7)]

/-- The lookup waits forever. -/
theorem calls_return_or_jam_drop :
    let system := sharedManager SessionList Bool Unit
    let state := system.after init dropInBroadcast
    Doomed (state.pc false) ∧ ∀ acts, system.Admits state acts →
      (system.after state acts).pc true = .lock (.findBySessionId 7) := by
  have hadmits : (sharedManager SessionList Bool Unit).Admits init dropInBroadcast :=
    ⟨rfl, rfl, trivial, trivial, rfl, rfl, rfl, rfl, trivial⟩
  refine ⟨rfl, ?_⟩
  intro acts h
  have hjam := (calls_return_or_jam (run_of_admits hadmits)).1 false rfl acts h
  exact hjam.2.2 true (.findBySessionId 7) rfl

end Core.SharedSessionManager
