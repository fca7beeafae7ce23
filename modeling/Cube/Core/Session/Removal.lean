/-
`Remove` is asked for an object and erases an id.

Two session objects may have the same id, and then `Add` of the second replaces the first.  A late
`Remove` of the first erases the second.  In terms of the sequence of calls: a `Remove` goes wrong
exactly when the last call before it that names the id is an `Add` of another object.
-/
import Cube.Core.Session.SessionManager

namespace Core.SessionManager

open Library

variable (κ : Type) [UnorderedMap κ UInt64 Session]

/-- `FindBySessionId(id)` on the manager after these calls. -/
def found (calls : List Call) (id : UInt64) : Except Error (Option Session) := do
  let m ← (empty : SessionManager κ).run calls
  let (_, session) ← m.findBySessionId id
  return session

/-- `t` was added, and since then neither removed nor replaced by another session. -/
def Registered (calls : List Call) (t : Session) : Prop :=
  ∃ before after, calls = before ++ .add t :: after ∧ ∀ c ∈ after,
    c ≠ .remove t ∧ ∀ u, c = .add u → u.sessionId = t.sessionId → u = t

/-- Along these calls a `Remove` takes nobody but the session it is given, and what is found is what
is registered. -/
structure KeepsOthers (calls : List Call) : Prop where
  removal : ∀ before s, before ++ [.remove s] <+: calls → ∀ t, t ≠ s →
    found κ before t.sessionId = .ok (some t) →
      found κ (before ++ [.remove s]) t.sessionId = .ok (some t)
  registered : ∀ before, before <+: calls → ∀ id t,
    found κ before id = .ok (some t) ↔ t.sessionId = id ∧ Registered before t

/-- When a session is removed, the last call that named its id is not an `Add` of another one. -/
def RemovesOwn (calls : List Call) : Prop :=
  ∀ before s, before ++ [.remove s] <+: calls →
    ∀ t, latest before s.sessionId = some (.add t) → t = s

/-! ### What is found -/

theorem found_eq (calls : List Call) (id : UInt64) :
    found κ calls id = .ok ((latest calls id).bind Call.left) := by
  unfold found empty
  rw [run_free]
  simp only [bind, Except.bind, findBySessionId_free]
  rw [find_tableAfter]
  rfl

variable {κ}

/-- A session is found exactly when the last call that named the id added it. -/
theorem found_iff {calls : List Call} {id : UInt64} {t : Session} :
    found κ calls id = .ok (some t) ↔ latest calls id = some (.add t) := by
  rw [found_eq, Except.ok.injEq]
  cases latest calls id with
  | none => simp
  | some c => cases c <;> simp [Call.left]

theorem sessionId_of_found {calls : List Call} {id : UInt64} {t : Session}
    (h : found κ calls id = .ok (some t)) : t.sessionId = id :=
  sessionId_of_latest (found_iff.mp h)

/-! ### One more call -/

/-- Who was registered still is, if the call neither removes nor replaces it. -/
theorem Registered.concat {calls : List Call} {c : Call} {t : Session} (h : Registered calls t)
    (hc : c ≠ .remove t ∧ ∀ u, c = .add u → u.sessionId = t.sessionId → u = t) :
    Registered (calls ++ [c]) t := by
  obtain ⟨before, after, rfl, hafter⟩ := h
  refine ⟨before, after ++ [c], by simp, ?_⟩
  intro c₁ hc₁
  rcases List.mem_append.mp hc₁ with hold | hnew
  · exact hafter c₁ hold
  · rw [List.mem_singleton.mp hnew]
    exact hc

/-- Who is registered was just added, or was registered before and neither removed nor replaced. -/
theorem Registered.last {calls : List Call} {c : Call} {t : Session}
    (h : Registered (calls ++ [c]) t) : c = .add t ∨ Registered calls t ∧ c ≠ .remove t ∧
      ∀ u, c = .add u → u.sessionId = t.sessionId → u = t := by
  obtain ⟨before, after, hcalls, hafter⟩ := h
  rcases List.eq_nil_or_concat after with rfl | ⟨after', c', rfl⟩
  · obtain ⟨_, hlast⟩ := List.append_inj' hcalls rfl
    exact Or.inl (List.singleton_inj.mp hlast)
  · rw [List.concat_eq_append, ← List.cons_append, ← List.append_assoc] at hcalls
    obtain ⟨hcalls', hlast⟩ := List.append_inj' hcalls rfl
    obtain rfl := List.singleton_inj.mp hlast
    refine Or.inr ⟨⟨before, after', hcalls', ?_⟩, hafter c (by simp)⟩
    intro c₁ hc₁
    exact hafter c₁ (by simp [hc₁])

/-- Who is found is registered, whatever the calls were. -/
theorem registered_of_latest {calls : List Call} {t : Session} :
    latest calls t.sessionId = some (.add t) → Registered calls t := by
  induction calls using List.reverseRecOn with
  | nil =>
      intro h
      cases h
  | append_singleton calls c ih =>
      intro h
      rw [latest_concat] at h
      by_cases hid : c.session.sessionId = t.sessionId
      · rw [if_pos hid] at h
        obtain rfl := Option.some.inj h
        exact ⟨calls, [], rfl, fun c hc => absurd hc List.not_mem_nil⟩
      · rw [if_neg hid] at h
        apply (ih h).concat
        refine ⟨?_, ?_⟩
        · intro hremove
          rw [hremove] at hid
          exact hid rfl
        · intro u hadd hu
          rw [hadd] at hid
          exact absurd hu hid

/-- Who is registered is found, if no `Remove` took away another session. -/
theorem latest_of_registered {calls : List Call} (hown : RemovesOwn calls) {t : Session} :
    Registered calls t → latest calls t.sessionId = some (.add t) := by
  induction calls using List.reverseRecOn with
  | nil =>
      intro h
      obtain ⟨before, after, hcalls, _⟩ := h
      exact absurd hcalls (by simp)
  | append_singleton calls c ih =>
      intro h
      have hown' : RemovesOwn calls := fun before s hs =>
        hown before s (hs.trans (List.prefix_append calls [c]))
      rw [latest_concat]
      rcases h.last with rfl | ⟨hreg, hremove, hadd⟩
      · exact if_pos rfl
      · have hlatest := ih hown' hreg
        by_cases hid : c.session.sessionId = t.sessionId
        · rw [if_pos hid]
          cases c with
          | add u => rw [hadd u rfl hid]
          | remove s =>
              -- the last call that named the id added `t`, so it is `t` that is removed
              have hid' : s.sessionId = t.sessionId := hid
              have hsame : t = s := hown calls s List.prefix_rfl t (hid' ▸ hlatest)
              exact absurd (congrArg Call.remove hsame.symm) hremove
        · rw [if_neg hid, hlatest]

/-! ### The condition -/

/-- What is found is what is registered. -/
theorem RemovesOwn.found_iff_registered {calls : List Call} (hown : RemovesOwn calls) {id : UInt64}
    {t : Session} : found κ calls id = .ok (some t) ↔ t.sessionId = id ∧ Registered calls t := by
  refine ⟨?_, ?_⟩
  · intro hfound
    obtain rfl := sessionId_of_found hfound
    exact ⟨rfl, registered_of_latest (found_iff.mp hfound)⟩
  · intro h
    obtain ⟨rfl, hreg⟩ := h
    exact found_iff.mpr (latest_of_registered hown hreg)

/-- A `Remove` of one session leaves another one registered. -/
theorem RemovesOwn.found_after_remove {calls before : List Call} {s t : Session}
    (hown : RemovesOwn calls) (hs : before ++ [.remove s] <+: calls) (hne : t ≠ s)
    (hbefore : found κ before t.sessionId = .ok (some t)) :
    found κ (before ++ [.remove s]) t.sessionId = .ok (some t) := by
  have hlatest := found_iff.mp hbefore
  have hother : s.sessionId ≠ t.sessionId := by
    intro hid
    exact hne (hown before s hs t (hid ▸ hlatest))
  rw [found_iff, latest_concat, Call.session_remove, if_neg hother]
  exact hlatest

/-- **When `Remove` keeps other sessions**: exactly when each `Remove` comes while nothing is
registered under the id, or the session itself is. -/
theorem keepsOthers_iff (calls : List Call) : KeepsOthers κ calls ↔ RemovesOwn calls := by
  refine ⟨?_, ?_⟩
  · intro hkeeps before s hs t hlatest
    by_contra hne
    have hid : t.sessionId = s.sessionId := sessionId_of_latest hlatest
    have hbefore : found κ before t.sessionId = .ok (some t) := by
      rw [found_iff, hid]
      exact hlatest
    have hafter := found_iff.mp (hkeeps.removal before s hs t hne hbefore)
    rw [latest_concat, Call.session_remove, if_pos hid.symm] at hafter
    cases hafter
  · intro hown
    refine ⟨fun before s hs t => hown.found_after_remove hs, ?_⟩
    intro before hb id t
    have hown' : RemovesOwn before := fun b s hs => hown b s (hs.trans hb)
    exact hown'.found_iff_registered

/-- A client comes back under its old id, and then its old connection is removed. -/
theorem remove_old_connection :
    found SessionList [.add ⟨1, 7⟩, .add ⟨2, 7⟩] 7 = .ok (some ⟨2, 7⟩) ∧
      found SessionList [.add ⟨1, 7⟩, .add ⟨2, 7⟩, .remove ⟨1, 7⟩] 7 = .ok none ∧
      ¬KeepsOthers SessionList [.add ⟨1, 7⟩, .add ⟨2, 7⟩, .remove ⟨1, 7⟩] := by
  have hbefore : found SessionList [.add ⟨1, 7⟩, .add ⟨2, 7⟩] 7 = .ok (some ⟨2, 7⟩) := by
    rw [found_eq]
    decide
  have hafter : found SessionList [.add ⟨1, 7⟩, .add ⟨2, 7⟩, .remove ⟨1, 7⟩] 7 = .ok none := by
    rw [found_eq]
    decide
  refine ⟨hbefore, hafter, ?_⟩
  intro hkeeps
  have hstill := hkeeps.removal [.add ⟨1, 7⟩, .add ⟨2, 7⟩] ⟨1, 7⟩ List.prefix_rfl ⟨2, 7⟩
    (by decide) hbefore
  rw [show found SessionList ([.add ⟨1, 7⟩, .add ⟨2, 7⟩] ++ [.remove ⟨1, 7⟩]) 7 = .ok none
    from hafter] at hstill
  cases hstill

end Core.SessionManager
