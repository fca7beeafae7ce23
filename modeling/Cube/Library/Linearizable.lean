/-
Objects shared by threads, and what it means that their calls are atomic.

A sequential object is a state and, for each operation, the state after it and its result.  The
atomic object lets any number of threads call it: a call is invoked, takes effect in one step at
some moment, and returns the result it had then.  A history of invocations and responses is
linearizable if the atomic object can produce it.  Since the effect of a call comes after its
invocation and before its response, a call that has returned before another is invoked also comes
first in the order of effects.

An implementation is shown to be linearizable by a simulation: each of its steps is answered by
steps of the atomic object that show the same to the outside.
-/
import Cube.Library.System
import Mathlib.Logic.Function.Basic

namespace Library

/-! ### Simulation -/

namespace System

variable {σ α σ' β ε : Type} {M : System σ α} {N : System σ' β} {obs : α → Option ε}
  {obs' : β → Option ε}

/-- What a trace shows to the outside. -/
def observed (obs : α → Option ε) (tr : List (σ × α)) : List ε := tr.filterMap fun e => obs e.2

theorem observed_append (tr tr' : List (σ × α)) :
    observed obs (tr ++ tr') = observed obs tr ++ observed obs tr' := List.filterMap_append

theorem observed_trace (acts : List α) :
    ∀ s : σ, observed obs (M.trace s acts) = acts.filterMap obs := by
  induction acts with
  | nil => intro s; rfl
  | cons a rest ih =>
      intro s
      unfold observed at ih ⊢
      rw [trace, List.filterMap_cons, List.filterMap_cons, ih]

/-- Every step of `M` is answered by steps of `N` that show the same. -/
structure Simulates (M : System σ α) (N : System σ' β) (obs : α → Option ε)
    (obs' : β → Option ε) (Related : σ → σ' → Prop) : Prop where
  init : Related M.init N.init
  step : ∀ s t a, Related s t → M.Enabled s a → ∃ acts, N.Admits t acts ∧
    Related (M.next s a) (N.after t acts) ∧ acts.filterMap obs' = (obs a).toList

/-- **A simulation answers whole runs.** -/
theorem Simulates.run {Related : σ → σ' → Prop} (h : Simulates M N obs obs' Related)
    {tr : List (σ × α)} {s : σ} (hr : M.Run tr s) :
    ∃ tr' t, N.Run tr' t ∧ Related s t ∧ observed obs' tr' = observed obs tr := by
  induction hr with
  | nil => exact ⟨[], N.init, .nil, h.init, rfl⟩
  | @step tr s a _ hen ih =>
      obtain ⟨tr', t, hrun, hrel, hsame⟩ := ih
      obtain ⟨acts, hadm, hrel', hshown⟩ := h.step s t a hrel hen
      refine ⟨tr' ++ N.trace t acts, N.after t acts, hrun.script hadm, hrel', ?_⟩
      have hlast : observed obs [(s, a)] = (obs a).toList := by
        unfold observed
        cases hobs : obs a with
        | none => simp [hobs]
        | some e => simp [hobs]
      rw [observed_append, observed_append, hsame, observed_trace, hshown, hlast]

end System

/-! ### The atomic object -/

/-- A sequential object: where it starts, and what an operation does to it and returns. -/
structure Sequential (σ ο ρ : Type) where
  init : σ
  apply : ο → σ → σ × ρ

namespace Atomic

variable {τ σ ο ρ : Type}

/-- What the outside sees of a call. -/
inductive Event (τ ο ρ : Type) where
  | invoke (t : τ) (op : ο)
  | respond (t : τ) (res : ρ)

/-- How far a thread's call is. -/
inductive Status (ο ρ : Type) where
  | idle
  | called (op : ο)
  | done (res : ρ)       -- it has taken effect

structure State (τ σ ο ρ : Type) where
  object : σ
  status : τ → Status ο ρ

inductive Action (τ ο ρ : Type) where
  | invoke (t : τ) (op : ο)
  | effect (t : τ) (op : ο)
  | respond (t : τ) (res : ρ)

/-- Effects are not seen. -/
def shown : Action τ ο ρ → Option (Event τ ο ρ)
  | .invoke t op => some (.invoke t op)
  | .effect _ _ => none
  | .respond t res => some (.respond t res)

variable [DecidableEq τ]

/-- The state with the call of thread `t` as far as `f`. -/
def State.set (s : State τ σ ο ρ) (t : τ) (f : Status ο ρ) : State τ σ ο ρ :=
  { s with status := Function.update s.status t f }

/-- The object, shared by threads of type `τ`. -/
def system (τ : Type) [DecidableEq τ] (obj : Sequential σ ο ρ) :
    System (State τ σ ο ρ) (Action τ ο ρ) where
  init := ⟨obj.init, fun _ => .idle⟩
  Enabled := fun s a =>
    match a with
    | .invoke t _ => s.status t = .idle
    | .effect t op => s.status t = .called op
    | .respond t res => s.status t = .done res
  next := fun s a =>
    match a with
    | .invoke t op => s.set t (.called op)
    | .effect t op =>
        { s.set t (.done (obj.apply op s.object).2) with object := (obj.apply op s.object).1 }
    | .respond t _ => s.set t .idle

end Atomic

/-- The atomic object can show these invocations and responses. -/
def Linearizable {τ σ ο ρ : Type} [DecidableEq τ] (obj : Sequential σ ο ρ)
    (history : List (Atomic.Event τ ο ρ)) : Prop :=
  ∃ tr s, (Atomic.system τ obj).Run tr s ∧ System.observed Atomic.shown tr = history

end Library
