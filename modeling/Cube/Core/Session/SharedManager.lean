/-
`SessionManager`, called by many threads at once.

Each of the four members is a few steps: the thread locks `_mutex`, works, unlocks it and returns.
The loop of `FuncToAll` takes one step for each session, in which it calls the callback; in between,
the other threads go on.  A callback that calls a member of the same manager stops in it, because
its own thread holds the mutex: `blocked` is the point where it stays.

Seen from outside, the manager is atomic: whatever the threads do, their calls return what they
would have returned one after the other.  Whether they return at all depends on the callbacks.
-/
import Cube.Library.Linearizable
import Cube.Library.Mutex
import Cube.Core.Session.FuncToAll

namespace Core.SharedSessionManager

open Library
open Core.SessionManager (Call Program aloneEach meantEach meantEach_of_alone)

/-- A call of a member, with its arguments. -/
inductive Member (ω : Type) where
  | change (c : Call)                                      -- `Add` or `Remove`
  | findBySessionId (id : UInt64)
  | funcToAll (func : Session → Program ω) (vars : ω)      -- and the callback's own variables

/-- What a call gives back.  For `FuncToAll` that is what the callback was called for, and its
variables afterwards. -/
inductive Result (ω : Type) where
  | done
  | found (session : Option Session)
  | called (sessions : List Session) (vars : ω)

/-- The point a thread stands at: what it does next. -/
inductive Point (ω : Type) where
  | outside
  | lock (m : Member ω)                  -- at the head of the member
  | change (c : Call)
  | find (id : UInt64)
  | each (func : Session → Program ω) (called rest : List Session) (vars : ω)
  | blocked                              -- in a callback that waits for the mutex of its thread
  | unlock (res : Result ω)
  | returned (res : Result ω)

/-- The points at which a thread holds the mutex. -/
def Inside {ω : Type} : Point ω → Prop
  | .change _ | .find _ | .each _ _ _ _ | .blocked | .unlock _ => True
  | _ => False

structure State (κ τ ω : Type) [UnorderedMap κ UInt64 Session] where
  sessions : Sessions κ
  mutex : Option τ
  pc : τ → Point ω

inductive Action (τ ω : Type) where
  | invoke (t : τ) (m : Member ω)
  | step (t : τ)                         -- the next statement of thread `t`
  | respond (t : τ) (res : Result ω)

variable {κ τ ω : Type} [UnorderedMap κ UInt64 Session] [DecidableEq τ]

/-- A manager just constructed. -/
def init : State κ τ ω := ⟨Sessions.empty, none, fun _ => .outside⟩

/-- Whether a thread at this point has a next statement that does not wait. -/
def Point.Ready (mutex : Option τ) : Point ω → Prop
  | .lock _ => mutex = none
  | .outside | .blocked | .returned _ => False
  | _ => True

def Enabled (s : State κ τ ω) : Action τ ω → Prop
  | .invoke t _ => s.pc t = .outside
  | .step t => (s.pc t).Ready s.mutex
  | .respond t res => s.pc t = .returned res

/-- The body of a member, at its first statement. -/
def Member.entry (t : Sessions κ) : Member ω → Point ω
  | .change c => .change c
  | .findBySessionId id => .find id
  | .funcToAll func vars => .each func [] t.registered vars

/-- The next statement of a thread: where it takes the thread. -/
def Point.advance (t : Sessions κ) : Point ω → Point ω
  | .lock m => m.entry t
  | .change _ => .unlock .done
  | .find id => .unlock (.found (t.find id))
  | .each _ called [] vars => .unlock (.called called vars)
  | .each func called (session :: rest) vars =>
      match (func session).alone vars with
      | some vars' => .each func (called ++ [session]) rest vars'
      | none => .blocked
  | .unlock res => .returned res
  | p => p

/-- What it does to the table. -/
def Point.write (t : Sessions κ) : Point ω → Sessions κ
  | .change c => c.apply t
  | _ => t

/-- What it does to the mutex. -/
def Point.hold (thread : τ) (mutex : Option τ) : Point ω → Option τ
  | .lock _ => some thread
  | .unlock _ => none
  | _ => mutex

/-- The state with thread `t` moved to point `f`. -/
def State.goto (s : State κ τ ω) (t : τ) (f : Point ω) : State κ τ ω :=
  { s with pc := Function.update s.pc t f }

/-- What a step does. -/
def next (s : State κ τ ω) : Action τ ω → State κ τ ω
  | .invoke t m => s.goto t (.lock m)
  | .step t =>
      { s.goto t ((s.pc t).advance s.sessions) with
        sessions := (s.pc t).write s.sessions
        mutex := (s.pc t).hold t s.mutex }
  | .respond t _ => s.goto t .outside

/-- The manager with a table of type `κ`, called by threads of type `τ` with callbacks over
variables of type `ω`. -/
def sharedManager (κ τ ω : Type) [UnorderedMap κ UInt64 Session] [DecidableEq τ] :
    System (State κ τ ω) (Action τ ω) where
  init := init
  Enabled := Enabled
  next := next

/-- Calls and returns are seen, the statements in between are not. -/
def shown : Action τ ω → Option (Atomic.Event τ (Member ω) (Result ω))
  | .invoke t m => some (.invoke t m)
  | .step _ => none
  | .respond t res => some (.respond t res)

/-- What the members are for, on a bare table of the same type.  A callback does what it asks
for. -/
def sequential (κ ω : Type) [UnorderedMap κ UInt64 Session] :
    Sequential (Sessions κ) (Member ω) (Result ω) where
  init := Sessions.empty
  apply := fun m t =>
    match m with
    | .change c => (c.apply t, .done)
    | .findBySessionId id => (t, .found (t.find id))
    | .funcToAll func vars =>
        ((meantEach func t.registered t vars).1,
          .called t.registered (meantEach func t.registered t vars).2)

theorem next_step (s : State κ τ ω) (t : τ) : next s (.step t)
    = ⟨(s.pc t).write s.sessions, (s.pc t).hold t s.mutex,
        Function.update s.pc t ((s.pc t).advance s.sessions)⟩ := rfl

/-! ### One callback -/

theorem advance_returns {func : Session → Program ω} {session : Session} {vars vars' : ω}
    (h : (func session).alone vars = some vars') (t : Sessions κ) (called rest : List Session) :
    (Point.each func called (session :: rest) vars).advance t
      = .each func (called ++ [session]) rest vars' := by
  simp only [Point.advance, h]

theorem advance_blocks {func : Session → Program ω} {session : Session} {vars : ω}
    (h : (func session).alone vars = none) (t : Sessions κ) (called rest : List Session) :
    (Point.each func called (session :: rest) vars).advance t = .blocked := by
  simp only [Point.advance, h]

theorem aloneEach_concat (func : Session → Program ω) (session : Session) (called : List Session) :
    ∀ vars : ω, aloneEach func (called ++ [session]) vars
      = (aloneEach func called vars).bind (func session).alone := by
  induction called with
  | nil =>
      intro vars
      cases h : (func session).alone vars with
      | none => simp [aloneEach, h]
      | some vars' => simp [aloneEach, h]
  | cons s rest ih =>
      intro vars
      rw [List.cons_append]
      unfold aloneEach
      cases h : (func s).alone vars with
      | none => rfl
      | some vars' => exact ih vars'

/-! ### The mutex -/

theorem entry_inside (m : Member ω) (t : Sessions κ) : Inside (m.entry t) := by
  cases m <;> trivial

theorem advance_inside {p : Point ω} (hp : Inside p) (hun : ∀ res, p ≠ .unlock res)
    (t : Sessions κ) : Inside (p.advance t) := by
  cases p with
  | outside | lock m | returned res => exact absurd hp id
  | change c | find id | blocked => trivial
  | unlock res => exact absurd rfl (hun res)
  | each func called rest vars =>
      cases rest with
      | nil => trivial
      | cons session rest =>
          cases h : (func session).alone vars with
          | none =>
              rw [advance_blocks h]
              trivial
          | some vars' =>
              rw [advance_returns h]
              trivial

theorem locked_next {s : State κ τ ω} (h : Locked Inside s.pc s.mutex) {a : Action τ ω}
    (hen : Enabled s a) : Locked Inside (next s a).pc (next s a).mutex := by
  cases a with
  | invoke t m =>
      have hpc : s.pc t = .outside := hen
      exact h.move (by simp [hpc, Inside])
  | respond t res =>
      have hpc : s.pc t = .returned res := hen
      exact h.move (by simp [hpc, Inside])
  | step t =>
      have hready : (s.pc t).Ready s.mutex := hen
      show Locked Inside (Function.update s.pc t ((s.pc t).advance s.sessions))
        ((s.pc t).hold t s.mutex)
      cases hpc : s.pc t with
      | outside | blocked | returned res =>
          rw [hpc] at hready
          exact absurd hready id
      | lock m =>
          rw [hpc] at hready
          have hfree : s.mutex = none := hready
          rw [hfree] at h
          exact h.acquire (entry_inside m s.sessions)
      | unlock res => exact h.release (by rw [hpc]; trivial) id
      | change c | find id | each func called rest vars =>
          have hin := advance_inside (p := s.pc t) (by rw [hpc]; trivial) (by simp [hpc]) s.sessions
          rw [hpc] at hin
          exact h.move ⟨fun _ => by rw [hpc]; trivial, fun _ => hin⟩

theorem locked_of_run {tr : List (State κ τ ω × Action τ ω)} {s : State κ τ ω}
    (hr : (sharedManager κ τ ω).Run tr s) : Locked Inside s.pc s.mutex :=
  hr.invariant (I := fun s => Locked Inside s.pc s.mutex)
    (fun _ => by simp [sharedManager, init, Inside]) (fun _ _ h hen => locked_next h hen)

/-! ### The atomic manager behind it -/

/-- How far the call of a thread at this point is, for the atomic manager.  A member takes effect at
its last statement before the mutex is unlocked. -/
def Agrees (t : Sessions κ) : Point ω → Atomic.Status (Member ω) (Result ω) → Prop
  | .outside, status => status = .idle
  | .lock m, status => status = .called m
  | .change c, status => status = .called (.change c)
  | .find id, status => status = .called (.findBySessionId id)
  | .each func called rest vars, status => ∃ vars₀, status = .called (.funcToAll func vars₀) ∧
      called ++ rest = t.registered ∧ aloneEach func called vars₀ = some vars
  | .blocked, status => ∃ m, status = .called m
  | .unlock res, status | .returned res, status => status = .done res

/-- Only a thread inside depends on the table. -/
theorem Agrees.of_outside {t t' : Sessions κ} {p : Point ω}
    {status : Atomic.Status (Member ω) (Result ω)} (h : Agrees t p status) (hp : ¬Inside p) :
    Agrees t' p status := by
  cases p with
  | outside | lock m | returned res => exact h
  | change c | find id | each func called rest vars | blocked | unlock res =>
      exact absurd trivial hp

/-- The shared manager, and the atomic one that shows the same. -/
structure Related (s : State κ τ ω)
    (a : Atomic.State τ (Sessions κ) (Member ω) (Result ω)) : Prop where
  object : a.object = s.sessions
  status : ∀ t, Agrees s.sessions (s.pc t) (a.status t)
  locked : Locked Inside s.pc s.mutex

variable {s s' : State κ τ ω} {a a' : Atomic.State τ (Sessions κ) (Member ω) (Result ω)} {t : τ}

/-- One thread moves.  What is left to show: the others do not notice. -/
theorem Related.move (h : Related s a) {f : Point ω} {status : Atomic.Status (Member ω) (Result ω)}
    (hpc : s'.pc = Function.update s.pc t f)
    (hstatus : a'.status = Function.update a.status t status)
    (hobject : a'.object = s'.sessions) (hnew : Agrees s'.sessions f status)
    (hothers : s'.sessions = s.sessions ∨ Inside (s.pc t))
    (hlocked : Locked Inside s'.pc s'.mutex) : Related s' a' where
  object := hobject
  locked := hlocked
  status := by
    intro u
    rw [hpc, hstatus]
    by_cases hu : u = t
    · subst hu
      rw [Function.update_self, Function.update_self]
      exact hnew
    · rw [Function.update_of_ne hu, Function.update_of_ne hu]
      rcases hothers with hsame | hin
      · rw [hsame]
        exact h.status u
      · exact (h.status u).of_outside fun hu' => hu (h.locked.exclusive hu' hin)

/-- One thread moves and the atomic manager does nothing. -/
theorem Related.silent (h : Related s a) {f : Point ω} (hpc : s'.pc = Function.update s.pc t f)
    (hsessions : s'.sessions = s.sessions) (hnew : Agrees s'.sessions f (a.status t))
    (hlocked : Locked Inside s'.pc s'.mutex) : Related s' a :=
  h.move hpc (Function.update_eq_self t a.status).symm (h.object.trans hsessions.symm) hnew
    (Or.inl hsessions) hlocked

/-- A callback that left the manager alone has asked for nothing. -/
theorem sequential_funcToAll {func : Session → Program ω} {table : Sessions κ} {vars₀ vars : ω}
    (h : aloneEach func table.registered vars₀ = some vars) :
    (sequential κ ω).apply (.funcToAll func vars₀) table
      = (table, .called table.registered vars) := by
  show ((meantEach func table.registered table vars₀).1, Result.called table.registered
    (meantEach func table.registered table vars₀).2) = _
  rw [meantEach_of_alone func table.registered h]

theorem agrees_entry {m : Member ω} {table : Sessions κ} :
    Agrees table (m.entry table) (.called m) := by
  cases m with
  | change c => rfl
  | findBySessionId id => rfl
  | funcToAll func vars => exact ⟨vars, rfl, rfl, rfl⟩

/-- The next statement of a thread is answered by the effect of its call, or by nothing. -/
theorem related_step (h : Related s a) (hready : (s.pc t).Ready s.mutex) :
    ∃ acts, (Atomic.system τ (sequential κ ω)).Admits a acts ∧
      Related (next s (.step t)) ((Atomic.system τ (sequential κ ω)).after a acts) ∧
      acts.filterMap Atomic.shown = [] := by
  have hlocked : Locked Inside (next s (.step t)).pc (next s (.step t)).mutex :=
    locked_next h.locked (a := .step t) hready
  have hagrees := h.status t
  rw [next_step] at hlocked ⊢
  cases hpc : s.pc t with
  | outside | blocked | returned res =>
      rw [hpc] at hready
      exact absurd hready id
  | lock m =>
      rw [hpc] at hagrees hlocked
      have hcalled : a.status t = .called m := hagrees
      refine ⟨[], trivial, h.silent rfl rfl ?_ hlocked, rfl⟩
      rw [hcalled]
      exact agrees_entry
  | unlock res =>
      rw [hpc] at hagrees hlocked
      exact ⟨[], trivial, h.silent rfl rfl hagrees hlocked, rfl⟩
  | change c =>
      rw [hpc] at hagrees hlocked
      refine ⟨[.effect t (.change c)], ⟨hagrees, trivial⟩, h.move rfl rfl ?_ rfl ?_ hlocked, rfl⟩
      · show c.apply a.object = c.apply s.sessions
        rw [h.object]
      · exact Or.inr (by rw [hpc]; trivial)
  | find id =>
      rw [hpc] at hagrees hlocked
      refine ⟨[.effect t (.findBySessionId id)], ⟨hagrees, trivial⟩,
        h.move rfl rfl h.object ?_ (Or.inl rfl) hlocked, rfl⟩
      show Atomic.Status.done _ = Atomic.Status.done _
      rw [← h.object]
      rfl
  | each func called rest vars =>
      rw [hpc] at hagrees hlocked
      obtain ⟨vars₀, hcalled, hall, halone⟩ := hagrees
      cases rest with
      | nil =>
          rw [List.append_nil] at hall
          subst hall
          have heffect := sequential_funcToAll halone
          refine ⟨[.effect t (.funcToAll func vars₀)], ⟨hcalled, trivial⟩,
            h.move rfl rfl ?_ ?_ (Or.inl rfl) hlocked, rfl⟩
          · show ((sequential κ ω).apply (.funcToAll func vars₀) a.object).1 = s.sessions
            rw [h.object, heffect]
          · show Atomic.Status.done ((sequential κ ω).apply (.funcToAll func vars₀) a.object).2 = _
            rw [h.object, heffect]
      | cons session rest =>
          refine ⟨[], trivial, ?_, rfl⟩
          cases hvars : (func session).alone vars with
          | none =>
              rw [advance_blocks hvars] at hlocked ⊢
              exact h.silent rfl rfl ⟨_, hcalled⟩ hlocked
          | some vars' =>
              rw [advance_returns hvars] at hlocked ⊢
              refine h.silent rfl rfl ⟨vars₀, hcalled, ?_, ?_⟩ hlocked
              · rw [List.append_assoc]
                exact hall
              · rw [aloneEach_concat, halone]
                exact hvars

theorem simulates : System.Simulates (sharedManager κ τ ω) (Atomic.system τ (sequential κ ω)) shown
    Atomic.shown Related where
  init := ⟨rfl, fun _ => rfl, fun _ => by simp [sharedManager, init, Inside]⟩
  step := by
    intro s a act h hen
    have hlocked : Locked Inside (next s act).pc (next s act).mutex := locked_next h.locked hen
    have hagrees := h.status
    cases act with
    | invoke t m =>
        have hpc : s.pc t = .outside := hen
        have hidle := hagrees t
        rw [hpc] at hidle
        refine ⟨[.invoke t m], ⟨hidle, trivial⟩, ?_, rfl⟩
        exact h.move rfl rfl h.object rfl (Or.inl rfl) hlocked
    | step t => exact related_step h hen
    | respond t res =>
        have hpc : s.pc t = .returned res := hen
        have hdone := hagrees t
        rw [hpc] at hdone
        refine ⟨[.respond t res], ⟨hdone, trivial⟩, ?_, rfl⟩
        exact h.move rfl rfl h.object rfl (Or.inl rfl) hlocked

/-- **The manager is atomic.**  Whatever the threads call and however their statements interleave,
what they see could have been seen of a manager whose members take one step each, between the call
and its return. -/
theorem calls_linearizable {tr : List (State κ τ ω × Action τ ω)} {s : State κ τ ω}
    (hr : (sharedManager κ τ ω).Run tr s) :
    Linearizable (sequential κ ω) (System.observed shown tr) := by
  obtain ⟨tr', a, hrun, _, hsame⟩ := simulates.run hr
  exact ⟨tr', a, hrun, hsame⟩

/-- A session is added while a broadcast already waits at the mutex. -/
def addBeforeBroadcast : List (Action Bool Unit) :=
  [.invoke false (.funcToAll (fun _ => .done) ()), .invoke true (.change (.add ⟨1, 7⟩)),
    .step true, .step true, .step true, .step false, .respond true .done, .step false,
    .step false, .step false, .respond false (.called [⟨1, 7⟩] ())]

/-- The broadcast reaches it. -/
theorem calls_linearizable_broadcast :
    Linearizable (sequential SessionList Unit)
      [.invoke false (.funcToAll (fun _ => .done) ()), .invoke true (.change (.add ⟨1, 7⟩)),
        .respond true .done, .respond false (.called [⟨1, 7⟩] ())] := by
  have hadmits : (sharedManager SessionList Bool Unit).Admits init addBeforeBroadcast :=
    ⟨rfl, rfl, rfl, trivial, trivial, rfl, rfl, trivial, trivial, trivial, rfl, trivial⟩
  exact calls_linearizable (System.run_of_admits hadmits)

end Core.SharedSessionManager
