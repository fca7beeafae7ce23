/-
`FuncToAll` and callbacks that use the manager.

`FuncToAll` calls its argument for each session with `_mutex` held.  A callback is a program: it
reads and sets variables of its own, which live on from one call to the next, and it may call any
member of the same manager.  Every program ends, so a run that does not return has locked a mutex
its own thread holds.

`meant` is what the callback asks for: the same steps on a bare table, with no mutex in the way.
No other thread changes the table while the mutex is held, and a callback that tries does not
return, so the sessions are those registered when `FuncToAll` was called.
-/
import Cube.Core.Session.SessionManager

namespace Core.SessionManager

open Library

/-- What a callback does, with variables of type `ω`. -/
inductive Program (ω : Type) where
  | done
  | get (next : ω → Program ω)                                             -- its variables
  | set (vars : ω) (next : Program ω)
  | findBySessionId (id : UInt64) (next : Option Session → Program ω)
  | call (c : Call) (next : Program ω)                                     -- `Add` or `Remove`
  | funcToAll (func : Session → Program ω) (next : Program ω)

variable {κ ω : Type} [UnorderedMap κ UInt64 Session]

/-! ### The code -/

/-- The loop of `FuncToAll`, with the sessions the callback was called for. -/
def callEach (func : Session → SessionManager κ → ω → Except Error (SessionManager κ × ω)) :
    List Session → SessionManager κ → ω → Except Error (SessionManager κ × ω × List Session)
  | [], m, vars => .ok (m, vars, [])
  | session :: rest, m, vars => do
      let (m, vars) ← func session m vars
      let (m, vars, called) ← callEach func rest m vars
      return (m, vars, session :: called)

/-- The callback runs on the manager. -/
def Program.exec : Program ω → SessionManager κ → ω → Except Error (SessionManager κ × ω)
  | .done, m, vars => .ok (m, vars)
  | .get next, m, vars => (next vars).exec m vars
  | .set vars next, m, _ => next.exec m vars
  | .findBySessionId id next, m, vars => do
      let (m, session) ← m.findBySessionId id
      (next session).exec m vars
  | .call c next, m, vars => do
      let m ← m.call c
      next.exec m vars
  | .funcToAll func next, m, vars => do
      let m ← m.lock
      let (m, vars, _) ← callEach (fun session => (func session).exec) m.sessions.registered m vars
      next.exec m.unlock vars

/-- `FuncToAll(func)`: the manager and the variables afterwards, and the sessions `func` was called
for, in order. -/
def funcToAll (m : SessionManager κ) (func : Session → Program ω) (vars : ω) :
    Except Error (SessionManager κ × ω × List Session) := do
  let m ← m.lock
  let (m, vars, called) ←
    callEach (fun session => (func session).exec) m.sessions.registered m vars
  return (m.unlock, vars, called)

/-! ### What is asked for -/

/-- The callback runs on a bare table. -/
def Program.meant : Program ω → Sessions κ → ω → Sessions κ × ω
  | .done, t, vars => (t, vars)
  | .get next, t, vars => (next vars).meant t vars
  | .set vars next, t, _ => next.meant t vars
  | .findBySessionId id next, t, vars => (next (t.find id)).meant t vars
  | .call c next, t, vars => next.meant (c.apply t) vars
  | .funcToAll func next, t, vars =>
      let after := t.registered.foldl (fun x session => (func session).meant x.1 x.2) (t, vars)
      next.meant after.1 after.2

/-- The callback for these sessions, one after the other. -/
def meantEach (func : Session → Program ω) (sessions : List Session) (t : Sessions κ) (vars : ω) :
    Sessions κ × ω :=
  sessions.foldl (fun x session => (func session).meant x.1 x.2) (t, vars)

/-- `FuncToAll` returns, it has called the callback once for each session that was registered and
for no other, and what the callback asked for has been done. -/
def Tolerates (t : Sessions κ) (func : Session → Program ω) (vars : ω) : Prop :=
  ∃ called, funcToAll ⟨false, t⟩ func vars
      = .ok (⟨false, (meantEach func t.registered t vars).1⟩,
          (meantEach func t.registered t vars).2, called) ∧
    called.Nodup ∧ ∀ session, session ∈ called ↔ t.find session.sessionId = some session

/-! ### Callbacks that leave the manager alone -/

/-- The variables after the callback, if it calls no member of the manager. -/
def Program.alone : Program ω → ω → Option ω
  | .done, vars => some vars
  | .get next, vars => (next vars).alone vars
  | .set vars next, _ => next.alone vars
  | .findBySessionId _ _, _ => none
  | .call _ _, _ => none
  | .funcToAll _ _, _ => none

/-- The variables after the callback was called for these sessions, if it never calls a member of
the manager. -/
def aloneEach (func : Session → Program ω) : List Session → ω → Option ω
  | [], vars => some vars
  | session :: rest, vars => ((func session).alone vars).bind (aloneEach func rest)

/-- Called for each registered session in turn, the callback never calls the manager. -/
def LeavesAlone (t : Sessions κ) (func : Session → Program ω) (vars : ω) : Prop :=
  (aloneEach func t.registered vars).isSome

/-- On a held mutex a callback returns only if it leaves the manager alone. -/
theorem exec_held (p : Program ω) : ∀ (t : Sessions κ) (vars : ω), p.exec ⟨true, t⟩ vars
    = (p.alone vars).elim (.error .deadlock) fun vars' => .ok (⟨true, t⟩, vars') := by
  induction p with
  | done => intro t vars; rfl
  | get next ih => intro t vars; exact ih vars t vars
  | set vars' next ih => intro t vars; exact ih t vars'
  | findBySessionId id next ih =>
      intro t vars
      unfold Program.exec
      rw [findBySessionId_held]
      rfl
  | call c next ih =>
      intro t vars
      unfold Program.exec
      rw [call_held]
      rfl
  | funcToAll func next ih ih' => intro t vars; rfl

theorem callEach_held (func : Session → Program ω) (sessions : List Session) :
    ∀ (t : Sessions κ) (vars : ω),
      callEach (fun session => (func session).exec) sessions ⟨true, t⟩ vars
        = (aloneEach func sessions vars).elim (.error .deadlock)
            fun vars' => .ok (⟨true, t⟩, vars', sessions) := by
  induction sessions with
  | nil => intro t vars; rfl
  | cons session rest ih =>
      intro t vars
      unfold callEach aloneEach
      rw [exec_held]
      cases halone : (func session).alone vars with
      | none => rfl
      | some vars' =>
          simp only [Option.elim, bind, Except.bind, Option.bind, ih]
          cases aloneEach func rest vars' <;> rfl

/-- A callback that leaves the manager alone asks for nothing. -/
theorem meant_of_alone (p : Program ω) :
    ∀ {t : Sessions κ} {vars vars' : ω}, p.alone vars = some vars' →
      p.meant t vars = (t, vars') := by
  induction p with
  | done =>
      intro t vars vars' h
      cases h
      rfl
  | get next ih => intro t vars vars' h; exact ih vars h
  | set vars₁ next ih => intro t vars vars' h; exact ih h
  | findBySessionId id next ih => intro t vars vars' h; cases h
  | call c next ih => intro t vars vars' h; cases h
  | funcToAll func next ih ih' => intro t vars vars' h; cases h

theorem meantEach_of_alone (func : Session → Program ω) (sessions : List Session) :
    ∀ {t : Sessions κ} {vars vars' : ω}, aloneEach func sessions vars = some vars' →
      meantEach func sessions t vars = (t, vars') := by
  induction sessions with
  | nil =>
      intro t vars vars' h
      cases h
      rfl
  | cons session rest ih =>
      intro t vars vars' h
      unfold aloneEach at h
      obtain ⟨vars₁, hfirst, hrest⟩ := Option.bind_eq_some_iff.mp h
      unfold meantEach
      rw [List.foldl_cons, meant_of_alone _ hfirst]
      exact ih hrest

/-! ### The condition -/

theorem funcToAll_eq (t : Sessions κ) (func : Session → Program ω) (vars : ω) :
    funcToAll ⟨false, t⟩ func vars
      = (aloneEach func t.registered vars).elim (.error .deadlock)
          fun vars' => .ok (⟨false, t⟩, vars', t.registered) := by
  unfold funcToAll lock
  simp only [bind, Except.bind, Bool.false_eq_true, if_false, callEach_held]
  cases aloneEach func t.registered vars <;> rfl

/-- **When `FuncToAll` tolerates its callback**: exactly when the callback never calls the manager.
If it does, the thread locks the mutex it holds. -/
theorem tolerates_iff (t : Sessions κ) (func : Session → Program ω) (vars : ω) :
    Tolerates t func vars ↔ LeavesAlone t func vars := by
  unfold Tolerates LeavesAlone
  rw [funcToAll_eq]
  cases halone : aloneEach func t.registered vars with
  | none =>
      refine ⟨?_, ?_⟩
      · intro h
        obtain ⟨called, hreturns, _⟩ := h
        cases hreturns
      · intro h
        exact absurd h Bool.false_ne_true
  | some vars' =>
      rw [meantEach_of_alone func t.registered halone]
      refine ⟨fun _ => rfl, ?_⟩
      intro _
      exact ⟨t.registered, rfl, t.registered_nodup, fun session => Sessions.mem_registered⟩

/-- A broadcast that drops the one session registered. -/
theorem funcToAll_drop :
    funcToAll ⟨false, (Sessions.empty : Sessions SessionList).assign ⟨1, 7⟩⟩
        (fun session => .call (.remove session) (.done : Program Unit)) () = .error .deadlock ∧
      ¬Tolerates ((Sessions.empty : Sessions SessionList).assign ⟨1, 7⟩)
        (fun session => .call (.remove session) (.done : Program Unit)) () := by
  refine ⟨rfl, ?_⟩
  intro h
  obtain ⟨called, hreturns, _⟩ := h
  cases hreturns

end Core.SessionManager
