/-
What may be used of a hash map.

A hash map stores values under keys, and it can be walked through.  Of the walk only this is known:
it meets every entry once.  The order is the map's own and may depend on everything that was ever
done to it, so the type of the maps is a parameter, and what is proved of the operations here holds
for every order.  `EntryList` is one such map: a new entry goes to the front, and an entry that is
assigned again keeps its place.
-/
import Mathlib.Data.List.AList

namespace Library

/-- Maps of type `κ` from keys of type `α` to values of type `β`. -/
class UnorderedMap (κ : Type) (α β : outParam Type) where
  empty : κ
  assign : κ → α → β → κ
  erase : κ → α → κ
  find : κ → α → Option β
  entries : κ → List (α × β)     -- in the order of iteration
  find_empty : ∀ a, find empty a = none
  find_assign_self : ∀ t a b, find (assign t a b) a = some b
  find_assign_of_ne : ∀ t a b a', a ≠ a' → find (assign t a b) a' = find t a'
  find_erase_self : ∀ t a, find (erase t a) a = none
  find_erase_of_ne : ∀ t a a', a ≠ a' → find (erase t a) a' = find t a'
  mem_entries : ∀ t a b, (a, b) ∈ entries t ↔ find t a = some b
  entries_nodup : ∀ t, (entries t).Nodup

namespace UnorderedMap

variable {κ α β : Type} [UnorderedMap κ α β]

theorem find_assign [DecidableEq α] (t : κ) (a : α) (b : β) (a' : α) :
    find (assign t a b) a' = if a = a' then some b else find t a' := by
  split
  · next heq =>
      subst heq
      exact find_assign_self t a b
  · next hne => exact find_assign_of_ne t a b a' hne

theorem find_erase [DecidableEq α] (t : κ) (a a' : α) :
    find (erase t a) a' = if a = a' then none else find t a' := by
  split
  · next heq =>
      subst heq
      exact find_erase_self t a
  · next hne => exact find_erase_of_ne t a a' hne

/-- No two entries have the same key. -/
theorem keys_nodup (t : κ) : ((entries t).map Prod.fst).Nodup := by
  apply List.Nodup.map_on _ (entries_nodup t)
  intro e he e' he' hkey
  have hfind := (mem_entries t e.1 e.2).mp he
  have hfind' := (mem_entries t e'.1 e'.2).mp he'
  rw [hkey, hfind'] at hfind
  exact Prod.ext hkey (Option.some.inj hfind).symm

end UnorderedMap

/-! ### A list of entries -/

/-- A map as a list of entries with different keys. -/
abbrev EntryList (α β : Type) : Type := AList fun _ : α => β

namespace EntryList

variable {α β : Type} [DecidableEq α]

def assign (t : EntryList α β) (a : α) (b : β) : EntryList α β :=
  if a ∈ t.keys then t.replace a b else t.insert a b

/-- An entry that is replaced is found with its new value, and the others as before. -/
theorem dlookup_kreplace (a : α) (b : β) (a' : α) (l : List (Sigma fun _ : α => β))
    (ha : a ∈ l.keys) : List.dlookup a' (List.kreplace a b l)
      = if a = a' then some b else List.dlookup a' l := by
  induction l with
  | nil => exact absurd ha List.not_mem_nil
  | cons e rest ih =>
      obtain ⟨a₁, b₁⟩ := e
      by_cases hkey : a = a₁
      · subst hkey
        have hhead : List.kreplace a b (⟨a, b₁⟩ :: rest) = ⟨a, b⟩ :: rest :=
          List.lookmap_cons_some _ _ (if_pos rfl)
        rw [hhead]
        by_cases hsame : a = a'
        · subst hsame
          rw [if_pos rfl, List.dlookup_cons_eq]
        · rw [if_neg hsame, List.dlookup_cons_ne _ _ (Ne.symm hsame),
            List.dlookup_cons_ne _ _ (Ne.symm hsame)]
      · have hhead : List.kreplace a b (⟨a₁, b₁⟩ :: rest) = ⟨a₁, b₁⟩ :: List.kreplace a b rest :=
          List.lookmap_cons_none _ _ (if_neg hkey)
        have hrest : a ∈ rest.keys := by
          rcases List.mem_cons.mp ha with heq | hmem
          · exact absurd heq hkey
          · exact hmem
        rw [hhead]
        by_cases hsame : a' = a₁
        · subst hsame
          rw [if_neg hkey, List.dlookup_cons_eq, List.dlookup_cons_eq]
        · rw [List.dlookup_cons_ne _ _ hsame, List.dlookup_cons_ne _ _ hsame, ih hrest]

theorem lookup_assign (t : EntryList α β) (a : α) (b : β) (a' : α) :
    (assign t a b).lookup a' = if a = a' then some b else t.lookup a' := by
  unfold assign
  by_cases ha : a ∈ t.keys
  · rw [if_pos ha]
    exact dlookup_kreplace a b a' _ ha
  · rw [if_neg ha]
    by_cases hsame : a = a'
    · subst hsame
      rw [if_pos rfl]
      exact AList.lookup_insert t
    · rw [if_neg hsame]
      exact AList.lookup_insert_ne (Ne.symm hsame)

instance : UnorderedMap (EntryList α β) α β where
  empty := (∅ : AList fun _ : α => β)
  assign := assign
  erase t a := AList.erase a t
  find t a := AList.lookup a t
  entries t := (AList.entries t).map fun e => (e.1, e.2)
  find_empty := AList.lookup_empty
  find_assign_self t a b := by rw [lookup_assign, if_pos rfl]
  find_assign_of_ne t a b a' h := by rw [lookup_assign, if_neg h]
  find_erase_self t a := AList.lookup_erase a t
  find_erase_of_ne t a a' h := AList.lookup_erase_ne (Ne.symm h)
  mem_entries t a b := by
    rw [List.mem_map]
    refine ⟨?_, ?_⟩
    · intro h
      obtain ⟨⟨a', b'⟩, he, heq⟩ := h
      cases heq
      exact AList.mem_lookup_iff.mpr he
    · intro h
      exact ⟨⟨a, b⟩, AList.mem_lookup_iff.mp h, rfl⟩
  entries_nodup t := by
    apply List.Nodup.map _ (List.NodupKeys.nodup (AList.nodupKeys t))
    intro e e' heq
    cases e
    cases e'
    cases heq
    rfl

end EntryList

end Library
