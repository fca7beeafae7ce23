/-
`SessionManager`.

The manager keeps a table from session ids to session objects.  Every member locks `_mutex` for its
whole body, and a `std::mutex` is not recursive: a thread that locks it while holding it never
comes back.  Here that is an error, so that a call that returns has not done it.  `mutex` says
whether the calling thread holds the mutex.

Of a session object only its identity and its id count here.  The id is given to the constructor
and never changes, and nothing keeps two objects from having the same one.  The table is a hash map
of any type `κ`, so that the order in which `FuncToAll` meets the sessions is left open.
-/
import Cube.Library.UnorderedMap
import Mathlib.Data.List.Induction

namespace Core

open Library

/-- A `std::shared_ptr<SessionBase>` that is not null: which object it points to, and the object's
`_sessionId`. -/
structure Session where
  object : Nat
  sessionId : UInt64
  deriving DecidableEq

/-- `std::unordered_map<uint64_t, std::shared_ptr<SessionBase>>`, with each session under its own
id. -/
structure Sessions (κ : Type) [UnorderedMap κ UInt64 Session] where
  map : κ
  keyed : ∀ e ∈ UnorderedMap.entries map, e.2.sessionId = e.1

/-- A map for the places where the order of iteration does not show. -/
abbrev SessionList : Type := EntryList UInt64 Session

variable {κ : Type} [UnorderedMap κ UInt64 Session]

namespace Sessions

def empty : Sessions κ where
  map := UnorderedMap.empty
  keyed := by
    intro e he
    have hfind := (UnorderedMap.mem_entries _ e.1 e.2).mp he
    rw [UnorderedMap.find_empty] at hfind
    cases hfind

/-- `_sessions[session->GetSessionId()] = session` -/
def assign (t : Sessions κ) (session : Session) : Sessions κ where
  map := UnorderedMap.assign t.map session.sessionId session
  keyed := by
    intro e he
    have hfind := (UnorderedMap.mem_entries _ e.1 e.2).mp he
    rw [UnorderedMap.find_assign] at hfind
    by_cases hid : session.sessionId = e.1
    · rw [if_pos hid] at hfind
      rw [← Option.some.inj hfind, hid]
    · rw [if_neg hid] at hfind
      exact t.keyed e ((UnorderedMap.mem_entries _ e.1 e.2).mpr hfind)

/-- `_sessions.erase(session->GetSessionId())` -/
def erase (t : Sessions κ) (session : Session) : Sessions κ where
  map := UnorderedMap.erase t.map session.sessionId
  keyed := by
    intro e he
    have hfind := (UnorderedMap.mem_entries _ e.1 e.2).mp he
    rw [UnorderedMap.find_erase] at hfind
    by_cases hid : session.sessionId = e.1
    · rw [if_pos hid] at hfind
      cases hfind
    · rw [if_neg hid] at hfind
      exact t.keyed e ((UnorderedMap.mem_entries _ e.1 e.2).mpr hfind)

/-- `_sessions.find(id)`, with a null pointer for `end()`. -/
def find (t : Sessions κ) (id : UInt64) : Option Session := UnorderedMap.find t.map id

/-- The sessions in the order of iteration. -/
def registered (t : Sessions κ) : List Session := (UnorderedMap.entries t.map).map Prod.snd

theorem find_empty (id : UInt64) : (empty : Sessions κ).find id = none :=
  UnorderedMap.find_empty id

theorem find_assign (t : Sessions κ) (session : Session) (id : UInt64) :
    (t.assign session).find id = if session.sessionId = id then some session else t.find id :=
  UnorderedMap.find_assign t.map session.sessionId session id

theorem find_erase (t : Sessions κ) (session : Session) (id : UInt64) :
    (t.erase session).find id = if session.sessionId = id then none else t.find id :=
  UnorderedMap.find_erase t.map session.sessionId id

/-- The iteration meets the sessions that are found under their id, -/
theorem mem_registered {t : Sessions κ} {session : Session} :
    session ∈ t.registered ↔ t.find session.sessionId = some session := by
  unfold registered find
  rw [List.mem_map, ← UnorderedMap.mem_entries]
  refine ⟨?_, ?_⟩
  · intro h
    obtain ⟨⟨id, s⟩, he, rfl⟩ := h
    obtain rfl : s.sessionId = id := t.keyed _ he
    exact he
  · intro h
    exact ⟨_, h, rfl⟩

/-- and each of them once. -/
theorem registered_nodup (t : Sessions κ) : t.registered.Nodup := by
  have hkeys : t.registered.map Session.sessionId
      = (UnorderedMap.entries t.map).map Prod.fst := by
    unfold registered
    rw [List.map_map]
    exact List.map_congr_left t.keyed
  apply List.Nodup.of_map Session.sessionId
  rw [hkeys]
  exact UnorderedMap.keys_nodup t.map

end Sessions

structure SessionManager (κ : Type) [UnorderedMap κ UInt64 Session] where
  mutex : Bool          -- held by the calling thread
  sessions : Sessions κ

namespace SessionManager

/-- Why a call does not return. -/
inductive Error where
  | deadlock            -- the thread locks a mutex that it holds
  deriving DecidableEq

/-- `std::lock_guard lock(_mutex)` -/
def lock (m : SessionManager κ) : Except Error (SessionManager κ) :=
  if m.mutex then .error .deadlock else .ok { m with mutex := true }

/-- The end of the lock's scope. -/
def unlock (m : SessionManager κ) : SessionManager κ := { m with mutex := false }

/-- A call of `Add` or of `Remove`. -/
inductive Call where
  | add (session : Session)
  | remove (session : Session)
  deriving DecidableEq

/-- The session the call is given. -/
def Call.session : Call → Session
  | .add session => session
  | .remove session => session

@[simp] theorem Call.session_add (session : Session) : (Call.add session).session = session := rfl

@[simp] theorem Call.session_remove (session : Session) :
    (Call.remove session).session = session := rfl

/-- What the call does to the table. -/
def Call.apply (t : Sessions κ) : Call → Sessions κ
  | .add session => t.assign session
  | .remove session => t.erase session

/-- `Add(session)` -/
def add (m : SessionManager κ) (session : Session) : Except Error (SessionManager κ) := do
  let m ← m.lock
  return { m with sessions := m.sessions.assign session }.unlock

/-- `Remove(session)` -/
def remove (m : SessionManager κ) (session : Session) : Except Error (SessionManager κ) := do
  let m ← m.lock
  return { m with sessions := m.sessions.erase session }.unlock

/-- `FindBySessionId(id)` -/
def findBySessionId (m : SessionManager κ) (id : UInt64) :
    Except Error (SessionManager κ × Option Session) := do
  let m ← m.lock
  return (m.unlock, m.sessions.find id)

def call (m : SessionManager κ) : Call → Except Error (SessionManager κ)
  | .add session => m.add session
  | .remove session => m.remove session

/-- One call after the other. -/
def run (m : SessionManager κ) : List Call → Except Error (SessionManager κ)
  | [] => .ok m
  | c :: rest => do
      let m' ← m.call c
      m'.run rest

/-- A manager just constructed. -/
def empty : SessionManager κ := ⟨false, Sessions.empty⟩

/-! ### The members on a free and on a held mutex -/

variable {t : Sessions κ}

theorem call_free (c : Call) : call ⟨false, t⟩ c = .ok ⟨false, c.apply t⟩ := by
  cases c <;> rfl

theorem findBySessionId_free (id : UInt64) :
    findBySessionId ⟨false, t⟩ id = .ok (⟨false, t⟩, t.find id) := rfl

theorem call_held (c : Call) : call ⟨true, t⟩ c = .error .deadlock := by
  cases c <;> rfl

theorem findBySessionId_held (id : UInt64) :
    findBySessionId ⟨true, t⟩ id = .error .deadlock := rfl

/-- The table after these calls. -/
def tableAfter (t : Sessions κ) (calls : List Call) : Sessions κ := calls.foldl Call.apply t

theorem run_free (calls : List Call) :
    ∀ t : Sessions κ, run ⟨false, t⟩ calls = .ok ⟨false, tableAfter t calls⟩ := by
  induction calls with
  | nil => intro t; rfl
  | cons c rest ih =>
      intro t
      simp only [run, call_free, bind, Except.bind]
      exact ih (c.apply t)

/-! ### The last call that names an id -/

/-- The last of these calls whose session has this id. -/
def latest (calls : List Call) (id : UInt64) : Option Call :=
  (calls.filter fun c => c.session.sessionId = id).getLast?

/-- The session this call leaves under the id. -/
def Call.left : Call → Option Session
  | .add session => some session
  | .remove _ => none

/-- A call leaves every other id as it was. -/
theorem find_apply (t : Sessions κ) (c : Call) (id : UInt64) :
    (c.apply t).find id = if c.session.sessionId = id then c.left else t.find id := by
  cases c with
  | add session => exact t.find_assign session id
  | remove session => exact t.find_erase session id

theorem latest_concat (calls : List Call) (c : Call) (id : UInt64) :
    latest (calls ++ [c]) id = if c.session.sessionId = id then some c else latest calls id := by
  unfold latest
  split
  · next heq => simp [heq]
  · next hne => simp [hne]

theorem sessionId_of_latest {calls : List Call} {id : UInt64} {c : Call}
    (h : latest calls id = some c) : c.session.sessionId = id := by
  have hmem := List.mem_of_getLast? h
  simpa using (List.mem_filter.mp hmem).2

/-- **The last call decides**: what is found under an id is what the last call that named it left
there. -/
theorem find_tableAfter (calls : List Call) (id : UInt64) :
    (tableAfter (Sessions.empty : Sessions κ) calls).find id
      = (latest calls id).bind Call.left := by
  induction calls using List.reverseRecOn with
  | nil => exact Sessions.find_empty id
  | append_singleton calls c ih =>
      have hlast : tableAfter (Sessions.empty : Sessions κ) (calls ++ [c])
          = c.apply (tableAfter Sessions.empty calls) := List.foldl_concat ..
      rw [hlast, find_apply, latest_concat, ih]
      by_cases hid : c.session.sessionId = id
      · rw [if_pos hid, if_pos hid]
        rfl
      · rw [if_neg hid, if_neg hid]

end SessionManager

end Core
