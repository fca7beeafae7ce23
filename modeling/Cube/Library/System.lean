/-
Transition systems with recorded runs.

A system is an initial state, a condition for each action to be enabled, and the
state each action leads to.  A run is recorded as its trace: every action taken,
together with the state it was taken in.  Keeping the states is what lets a
property of a whole run be stated without ghost variables: "no call between a
return and the next start" is a statement about the trace, and so is the
condition a run has to meet for a guarantee to hold.

There are four rules.  `Run.invariant` is induction on a run.
`Run.invariant_of_guarded` is the same for runs whose steps all meet a condition.
`Run.separated` is for order: if one action establishes a fact that only `b`
actions can destroy and that disables a second action, then the two never occur
without a `b` between them.  `reach_of_progress` is for what a run can still do: a
measure that some step always lowers is lowered to the goal.
-/
import Mathlib.Data.List.Basic

namespace Library

/-- A system: where it starts, which actions a state enables, where they lead. -/
structure System (σ α : Type) where
  init : σ
  Enabled : σ → α → Prop
  next : σ → α → σ

namespace System

variable {σ α : Type} {M : System σ α}

/-- `M.Run tr s`: the steps recorded in `tr` lead from the initial state to `s`. -/
inductive Run (M : System σ α) : List (σ × α) → σ → Prop
  | nil : Run M [] M.init
  | step {tr : List (σ × α)} {s : σ} {a : α} (h : Run M tr s) (hen : M.Enabled s a) :
      Run M (tr ++ [(s, a)]) (M.next s a)

/-- Some run ends in `s`. -/
def Reachable (M : System σ α) (s : σ) : Prop := ∃ tr, M.Run tr s

/-- Every step of the trace meets the condition `G`. -/
def Guarded (G : σ → α → Prop) (tr : List (σ × α)) : Prop := ∀ e ∈ tr, G e.1 e.2

theorem guarded_append {G : σ → α → Prop} {tr tr' : List (σ × α)} :
    Guarded G (tr ++ tr') ↔ Guarded G tr ∧ Guarded G tr' := by
  simp only [Guarded, List.mem_append]
  refine ⟨?_, ?_⟩
  · intro h
    exact ⟨fun e he => h e (Or.inl he), fun e he => h e (Or.inr he)⟩
  · intro h e hmem
    rcases hmem with he | he
    · exact h.1 e he
    · exact h.2 e he

@[simp] theorem guarded_singleton {G : σ → α → Prop} {s : σ} {a : α} :
    Guarded G [(s, a)] ↔ G s a := by
  simp [Guarded]

/-! ### Invariants -/

/-- What holds at the start and survives every guarded step holds after every guarded run. -/
theorem Run.invariant_of_guarded {G : σ → α → Prop} {I : σ → Prop} (h0 : I M.init)
    (hstep : ∀ s a, I s → M.Enabled s a → G s a → I (M.next s a))
    {tr : List (σ × α)} {s : σ} (hr : M.Run tr s) (hg : Guarded G tr) : I s := by
  induction hr with
  | nil => exact h0
  | @step tr s a h hen ih =>
      rw [guarded_append, guarded_singleton] at hg
      exact hstep s a (ih hg.1) hen hg.2

/-- What holds at the start and survives every step holds in every state reached. -/
theorem Run.invariant {I : σ → Prop} (h0 : I M.init)
    (hstep : ∀ s a, I s → M.Enabled s a → I (M.next s a))
    {tr : List (σ × α)} {s : σ} (hr : M.Run tr s) : I s :=
  hr.invariant_of_guarded (G := fun _ _ => True) h0
    (fun s a hI hen _ => hstep s a hI hen) (fun _ _ => trivial)

/-! ### The steps of a run -/

/-- A step of `tr ++ [e']` is either the last one or a step of `tr`. -/
private theorem append_singleton_split {β : Type} {tr pre post : List β} {e e' : β}
    (h : tr ++ [e'] = pre ++ e :: post) :
    (pre = tr ∧ e = e' ∧ post = []) ∨ ∃ post', post = post' ++ [e'] ∧ tr = pre ++ e :: post' := by
  rcases List.eq_nil_or_concat post with rfl | ⟨post', y, rfl⟩
  · obtain ⟨hpre, hlast⟩ := List.append_inj' h rfl
    exact Or.inl ⟨hpre.symm, (List.singleton_inj.mp hlast).symm, rfl⟩
  · rw [List.concat_eq_append, ← List.cons_append, ← List.append_assoc] at h
    obtain ⟨hpre, hlast⟩ := List.append_inj' h rfl
    obtain rfl := List.singleton_inj.mp hlast
    exact Or.inr ⟨post', List.concat_eq_append, hpre⟩

/-- A run cut at one of its steps: the steps before it are a run to the state it was taken in. -/
theorem Run.split {s' : σ} {tr : List (σ × α)} (hr : M.Run tr s') :
    ∀ {pre post : List (σ × α)} {s : σ} {a : α}, tr = pre ++ (s, a) :: post →
      M.Run pre s ∧ M.Enabled s a := by
  induction hr with
  | nil => intro pre post s a h; simp at h
  | @step tr s₁ a₁ h hen ih =>
      intro pre post s a heq
      rcases append_singleton_split heq with ⟨rfl, hlast, -⟩ | ⟨post', -, htr⟩
      · cases hlast
        exact ⟨h, hen⟩
      · exact ih htr

/-- The steps a run takes from one of its states on: `Q` holds after the step `a₁` and survives
every step that meets `G`, so it still holds at the end if all of them do. -/
theorem Run.since {G : σ → α → Prop} {Q : σ → Prop} {a₁ : α} {s₁ : σ}
    (hafter : M.Enabled s₁ a₁ → Q (M.next s₁ a₁))
    (hstep : ∀ s a, M.Reachable s → Q s → M.Enabled s a → G s a → Q (M.next s a))
    {tr : List (σ × α)} {s : σ} (hr : M.Run tr s) :
    ∀ {pre mid : List (σ × α)}, tr = pre ++ (s₁, a₁) :: mid → Guarded G mid → Q s := by
  induction hr with
  | nil => intro pre mid h; simp at h
  | @step tr s a h hen ih =>
      intro pre mid heq hmid
      rcases append_singleton_split heq with ⟨-, hlast, -⟩ | ⟨mid', rfl, htr⟩
      · cases hlast
        exact hafter hen
      · rw [guarded_append, guarded_singleton] at hmid
        exact hstep s a ⟨tr, h⟩ (ih htr hmid.1) hen hmid.2

/-- The same for a fact about the whole trace. -/
theorem Run.since_trace {G : σ → α → Prop} {Q : List (σ × α) → σ → Prop}
    {pre : List (σ × α)} {a₁ : α} {s₁ : σ}
    (hafter : M.Run pre s₁ → M.Enabled s₁ a₁ → Q (pre ++ [(s₁, a₁)]) (M.next s₁ a₁))
    (hstep : ∀ tr s a, M.Run tr s → Q tr s → M.Enabled s a → G s a →
      Q (tr ++ [(s, a)]) (M.next s a))
    {tr : List (σ × α)} {s : σ} (hr : M.Run tr s) :
    ∀ {mid : List (σ × α)}, tr = pre ++ (s₁, a₁) :: mid → Guarded G mid → Q tr s := by
  induction hr with
  | nil => intro mid h; simp at h
  | @step tr s a h hen ih =>
      intro mid heq hmid
      rcases append_singleton_split heq with ⟨hpre, hlast, -⟩ | ⟨mid', rfl, htr⟩
      · cases hlast
        rw [hpre] at hafter
        exact hafter h hen
      · rw [guarded_append, guarded_singleton] at hmid
        exact hstep tr s a h (ih htr hmid.1) hen hmid.2

/-- **Two actions kept apart.**  If `a₁` establishes `Q`, only `b` actions destroy it, and `Q`
disables `a₂`, then between an `a₁` and a later `a₂` there is always a `b`. -/
theorem Run.separated {Q : σ → Prop} {b : α → Prop} {a₁ a₂ : α} {s₁ s₂ : σ}
    (hafter : M.Enabled s₁ a₁ → Q (M.next s₁ a₁))
    (hstep : ∀ s a, M.Reachable s → Q s → M.Enabled s a → ¬b a → Q (M.next s a))
    (hdis : Q s₂ → ¬M.Enabled s₂ a₂)
    {tr : List (σ × α)} {s : σ} (hr : M.Run tr s)
    {pre mid post : List (σ × α)} (heq : tr = pre ++ (s₁, a₁) :: (mid ++ (s₂, a₂) :: post)) :
    ∃ e ∈ mid, b e.2 := by
  by_contra hno
  push Not at hno
  have hcut : tr = (pre ++ (s₁, a₁) :: mid) ++ (s₂, a₂) :: post := by simp [heq]
  obtain ⟨hrun, hen⟩ := hr.split hcut
  exact hdis (hrun.since (G := fun _ a => ¬b a) hafter hstep rfl hno) hen

/-! ### Scripts

A script is a list of actions; `after` is where it leads and `Admits` says that each
action is enabled when its turn comes.  Both compute, so a concrete run is checked by
evaluation.
-/

/-- The state a script leads to. -/
def after (M : System σ α) : σ → List α → σ
  | s, [] => s
  | s, a :: rest => M.after (M.next s a) rest

/-- Every action of the script is enabled when its turn comes. -/
def Admits (M : System σ α) : σ → List α → Prop
  | _, [] => True
  | s, a :: rest => M.Enabled s a ∧ M.Admits (M.next s a) rest

/-- The trace a script leaves. -/
def trace (M : System σ α) : σ → List α → List (σ × α)
  | _, [] => []
  | s, a :: rest => (s, a) :: M.trace (M.next s a) rest

instance decidableAdmits [∀ s a, Decidable (M.Enabled s a)] :
    ∀ (acts : List α) (s : σ), Decidable (M.Admits s acts)
  | [], _ => isTrue trivial
  | a :: rest, s => @instDecidableAnd _ _ _ (decidableAdmits rest (M.next s a))

@[simp] theorem after_nil (s : σ) : M.after s [] = s := rfl

@[simp] theorem after_cons (s : σ) (a : α) (rest : List α) :
    M.after s (a :: rest) = M.after (M.next s a) rest := rfl

@[simp] theorem admits_nil (s : σ) : M.Admits s [] := trivial

@[simp] theorem admits_cons (s : σ) (a : α) (rest : List α) :
    M.Admits s (a :: rest) ↔ M.Enabled s a ∧ M.Admits (M.next s a) rest := Iff.rfl

theorem after_append (acts acts' : List α) :
    ∀ s : σ, M.after s (acts ++ acts') = M.after (M.after s acts) acts' := by
  induction acts with
  | nil => intro s; rfl
  | cons a rest ih => intro s; exact ih (M.next s a)

theorem admits_append {acts acts' : List α} :
    ∀ {s : σ}, M.Admits s acts → M.Admits (M.after s acts) acts' →
      M.Admits s (acts ++ acts') := by
  induction acts with
  | nil => intro s _ h; exact h
  | cons a rest ih => intro s h h'; exact ⟨h.1, ih h.2 h'⟩

theorem trace_append (acts acts' : List α) :
    ∀ s : σ, M.trace s (acts ++ acts') = M.trace s acts ++ M.trace (M.after s acts) acts' := by
  induction acts with
  | nil => intro s; rfl
  | cons a rest ih => intro s; exact congrArg ((s, a) :: ·) (ih (M.next s a))

/-- The actions of the trace are those of the script. -/
theorem mem_of_mem_trace {e : σ × α} {acts : List α} :
    ∀ {s : σ}, e ∈ M.trace s acts → e.2 ∈ acts := by
  induction acts with
  | nil => intro s h; exact absurd h List.not_mem_nil
  | cons a rest ih =>
      intro s h
      rcases List.mem_cons.mp h with rfl | hrest
      · exact List.mem_cons_self
      · exact List.mem_cons_of_mem _ (ih hrest)

/-- What holds of the actions of a script guards its trace. -/
theorem guarded_trace {P : α → Prop} {acts : List α} {s : σ} (h : ∀ a ∈ acts, P a) :
    Guarded (fun _ a => P a) (M.trace s acts) :=
  fun e he => h e.2 (mem_of_mem_trace he)

/-- What survives every step survives a script. -/
theorem Admits.invariant {I : σ → Prop} (hstep : ∀ s a, I s → M.Enabled s a → I (M.next s a))
    {acts : List α} : ∀ {s : σ}, M.Admits s acts → I s → I (M.after s acts) := by
  induction acts with
  | nil => intro s _ h; exact h
  | cons a rest ih => intro s hadm h; exact ih hadm.2 (hstep s a h hadm.1)

/-- A script that a run's last state admits extends the run. -/
theorem Run.script {acts : List α} :
    ∀ {tr : List (σ × α)} {s : σ}, M.Run tr s → M.Admits s acts →
      M.Run (tr ++ M.trace s acts) (M.after s acts) := by
  induction acts with
  | nil => intro tr s hr _; simpa [trace] using hr
  | cons a rest ih =>
      intro tr s hr h
      have hnext := ih (hr.step h.1) h.2
      rwa [List.append_assoc] at hnext

/-- A script the initial state admits is a run. -/
theorem run_of_admits {acts : List α} (h : M.Admits M.init acts) :
    M.Run (M.trace M.init acts) (M.after M.init acts) := by
  have hrun := Run.script (Run.nil (M := M)) h
  rwa [List.nil_append] at hrun

/-- **Progress.**  If in every state of `I` that misses the goal some step stays in `I` and lowers
the measure, then from every state of `I` a script leads to the goal. -/
theorem reach_of_progress {I G : σ → Prop} (m : σ → Nat)
    (hstep : ∀ s, I s → ¬G s → ∃ a, M.Enabled s a ∧ I (M.next s a) ∧ m (M.next s a) < m s) :
    ∀ s, I s → ∃ acts, M.Admits s acts ∧ I (M.after s acts) ∧ G (M.after s acts) := by
  intro s
  induction hn : m s using Nat.strongRecOn generalizing s with
  | _ n ih =>
      intro hI
      by_cases hgoal : G s
      · exact ⟨[], trivial, hI, hgoal⟩
      · obtain ⟨a, hen, hI', hlt⟩ := hstep s hI hgoal
        obtain ⟨acts, hadm, hend⟩ := ih (m (M.next s a)) (hn ▸ hlt) (M.next s a) rfl hI'
        exact ⟨a :: acts, ⟨hen, hadm⟩, hend⟩

/-- **Amortised bound.**  If every counted step lowers the measure and only the paying ones raise
it, by at most `c`, then a script has at most `c` counted steps for each paying one, and as many
more as the measure allows. -/
theorem count_le_of_potential {I : σ → Prop} (ok counted paying : α → Prop)
    [DecidablePred counted] [DecidablePred paying] (m : σ → Nat) (c : Nat)
    (hstep : ∀ s a, I s → M.Enabled s a → ok a → I (M.next s a) ∧
      m (M.next s a) + (if counted a then 1 else 0) ≤ m s + (if paying a then c else 0)) :
    ∀ (acts : List α) (s : σ), I s → M.Admits s acts → (∀ a ∈ acts, ok a) →
      m (M.after s acts) + acts.countP (counted ·) ≤ m s + c * acts.countP (paying ·) := by
  intro acts
  induction acts with
  | nil => intro s _ _ _; simp
  | cons a rest ih =>
      intro s hI hadm hok
      obtain ⟨hI', hle⟩ := hstep s a hI hadm.1 (hok a List.mem_cons_self)
      have hrest := ih (M.next s a) hI' hadm.2 fun b hb => hok b (List.mem_cons_of_mem _ hb)
      have hpays : c * (if paying a then 1 else 0) = if paying a then c else 0 := by
        by_cases h : paying a
        · rw [if_pos h, if_pos h, Nat.mul_one]
        · rw [if_neg h, if_neg h, Nat.mul_zero]
      rw [List.countP_cons, List.countP_cons, after_cons, Nat.mul_add]
      simp only [decide_eq_true_eq, hpays]
      omega

/-! ### Some of the actions -/

/-- The system without the actions that `P` leaves out. -/
def restrict (M : System σ α) (P : α → Prop) : System σ α where
  init := M.init
  Enabled s a := M.Enabled s a ∧ P a
  next := M.next

theorem after_restrict (P : α → Prop) (acts : List α) :
    ∀ s : σ, (M.restrict P).after s acts = M.after s acts := by
  induction acts with
  | nil => intro s; rfl
  | cons a rest ih => intro s; exact ih (M.next s a)

/-- A script of the restricted system is one of the system, of actions that are left. -/
theorem admits_of_restrict {P : α → Prop} {acts : List α} :
    ∀ {s : σ}, (M.restrict P).Admits s acts → M.Admits s acts ∧ ∀ a ∈ acts, P a := by
  induction acts with
  | nil => intro s _; exact ⟨trivial, fun a ha => absurd ha List.not_mem_nil⟩
  | cons a rest ih =>
      intro s h
      obtain ⟨⟨hen, hP⟩, hrest⟩ := h
      obtain ⟨hadm, hall⟩ := ih hrest
      refine ⟨⟨hen, hadm⟩, fun b hb => ?_⟩
      rcases List.mem_cons.mp hb with rfl | hb'
      · exact hP
      · exact hall b hb'

end System

end Library
