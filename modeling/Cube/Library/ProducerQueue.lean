/-
A linearizable queue that is first-in first-out for each producer.

This is the contract of a multi-producer queue that keeps one sub-queue per
producer: an element leaves only after every earlier element of the same
producer, and nothing is promised about elements of different producers.  The
contract is written as a structure.  Besides the elements still waiting it keeps
the whole history, every element ever enqueued and every element dequeued so
far, and its fields say how the three relate: together the dequeued and the
waiting elements are exactly the enqueued ones, and for each producer they are so
in order.  Whoever embeds a queue gets conservation and order from the type.

Elements are told apart by a ticket, the number of elements enqueued before.  Two
enqueues of equal values are two entries.
-/
import Mathlib.Data.List.Nodup
import Mathlib.Data.List.Range

namespace Library

/-- One enqueued element: who enqueued it, when, and what it is. -/
structure Entry (π α : Type) where
  producer : π
  ticket : Nat
  value : α
  deriving DecidableEq

/-- A queue with its history: all that was enqueued, what left it in the order it left, and
what it holds. -/
structure ProducerQueue (π α : Type) [DecidableEq π] where
  enqueued : List (Entry π α)
  dequeued : List (Entry π α)
  pending : List (Entry π α)
  tickets : enqueued.map Entry.ticket = List.range enqueued.length
  conserved : enqueued.Perm (dequeued ++ pending)
  ordered : ∀ i : π, enqueued.filter (·.producer = i)
    = dequeued.filter (·.producer = i) ++ pending.filter (·.producer = i)

namespace ProducerQueue

variable {π α : Type} [DecidableEq π]

/-! ### Operations -/

/-- The queue as it is constructed. -/
def empty : ProducerQueue π α where
  enqueued := []
  dequeued := []
  pending := []
  tickets := rfl
  conserved := List.Perm.refl _
  ordered := fun _ => rfl

/-- The entry an enqueue by `i` creates. -/
def newEntry (q : ProducerQueue π α) (i : π) (x : α) : Entry π α := ⟨i, q.enqueued.length, x⟩

/-- Producer `i` enqueues `x`. -/
def enqueue (q : ProducerQueue π α) (i : π) (x : α) : ProducerQueue π α where
  enqueued := q.enqueued ++ [q.newEntry i x]
  dequeued := q.dequeued
  pending := q.pending ++ [q.newEntry i x]
  tickets := by
    rw [List.map_append, q.tickets, List.length_append]
    exact List.range_succ.symm
  conserved := by
    rw [← List.append_assoc]
    exact q.conserved.append_right _
  ordered := fun j => by
    rw [List.filter_append, List.filter_append, q.ordered j, List.append_assoc]

/-- The oldest waiting entry of producer `i`. -/
def front (q : ProducerQueue π α) (i : π) : Option (Entry π α) :=
  q.pending.find? (·.producer = i)

/-- The list around the first entry of producer `i`. -/
private theorem split_at_front {i : π} {l : List (Entry π α)} {e : Entry π α}
    (h : l.find? (·.producer = i) = some e) :
    e.producer = i ∧ ∃ l₁ l₂, (∀ b ∈ l₁, b.producer ≠ i) ∧ l = l₁ ++ e :: l₂ ∧
      l.eraseP (·.producer = i) = l₁ ++ l₂ := by
  obtain ⟨hpe, l₁, l₂, rfl, hl₁⟩ := List.find?_eq_some_iff_append.mp h
  have hnot : ∀ b ∈ l₁, ¬decide (b.producer = i) = true := by simpa using hl₁
  refine ⟨by simpa using hpe, l₁, l₂, by simpa using hnot, rfl, ?_⟩
  rw [List.eraseP_append_right _ hnot, List.eraseP_cons_of_pos (by simpa using hpe)]

/-- Take the oldest waiting entry of producer `i` out, if there is one. -/
def dequeueFrom (q : ProducerQueue π α) (i : π) : ProducerQueue π α where
  enqueued := q.enqueued
  dequeued := q.dequeued ++ (q.front i).toList
  pending := q.pending.eraseP (·.producer = i)
  tickets := q.tickets
  conserved := by
    cases hf : q.front i with
    | none =>
        have hno : ∀ b ∈ q.pending, ¬decide (b.producer = i) = true := by
          simpa [front] using hf
        rw [List.eraseP_of_forall_not hno]
        simpa using q.conserved
    | some e =>
        obtain ⟨-, l₁, l₂, -, hl, herase⟩ := split_at_front hf
        rw [herase]
        refine q.conserved.trans ?_
        rw [hl, List.append_assoc]
        exact List.Perm.append_left _ List.perm_middle
  ordered := fun j => by
    cases hf : q.front i with
    | none =>
        have hno : ∀ b ∈ q.pending, ¬decide (b.producer = i) = true := by
          simpa [front] using hf
        rw [List.eraseP_of_forall_not hno]
        simpa using q.ordered j
    | some e =>
        obtain ⟨hei, l₁, l₂, hl₁, hl, herase⟩ := split_at_front hf
        rw [herase, q.ordered j, hl]
        by_cases hij : e.producer = j
        · -- the entries before `e` belong to others, so `e` is the first of `j`
          have hnil : l₁.filter (·.producer = j) = [] := by
            refine List.filter_eq_nil_iff.mpr fun b hb => ?_
            have := hl₁ b hb
            rw [← hij, hei]
            simpa using this
          simp [List.filter_append, hij, hnil]
        · simp [List.filter_append, hij]

/-! ### What the operations do -/

@[simp] theorem empty_enqueued : (empty : ProducerQueue π α).enqueued = [] := rfl
@[simp] theorem empty_dequeued : (empty : ProducerQueue π α).dequeued = [] := rfl
@[simp] theorem empty_pending : (empty : ProducerQueue π α).pending = [] := rfl

@[simp] theorem enqueue_enqueued (q : ProducerQueue π α) (i : π) (x : α) :
    (q.enqueue i x).enqueued = q.enqueued ++ [q.newEntry i x] := rfl
@[simp] theorem enqueue_dequeued (q : ProducerQueue π α) (i : π) (x : α) :
    (q.enqueue i x).dequeued = q.dequeued := rfl
@[simp] theorem enqueue_pending (q : ProducerQueue π α) (i : π) (x : α) :
    (q.enqueue i x).pending = q.pending ++ [q.newEntry i x] := rfl

@[simp] theorem dequeueFrom_enqueued (q : ProducerQueue π α) (i : π) :
    (q.dequeueFrom i).enqueued = q.enqueued := rfl

theorem dequeueFrom_dequeued {q : ProducerQueue π α} {i : π} {e : Entry π α}
    (h : q.front i = some e) : (q.dequeueFrom i).dequeued = q.dequeued ++ [e] := by
  simp [dequeueFrom, h]

theorem front_mem {q : ProducerQueue π α} {i : π} {e : Entry π α} (h : q.front i = some e) :
    e ∈ q.pending := List.mem_of_find?_eq_some h

/-- A producer with a waiting entry can be served. -/
theorem exists_front {q : ProducerQueue π α} {e : Entry π α} (h : e ∈ q.pending) :
    ∃ e', q.front e.producer = some e' := by
  rw [← Option.isSome_iff_exists, front, List.find?_isSome]
  exact ⟨e, h, by simp⟩

theorem dequeueFrom_pending_length {q : ProducerQueue π α} {i : π} {e : Entry π α}
    (h : q.front i = some e) : q.pending.length = (q.dequeueFrom i).pending.length + 1 := by
  obtain ⟨-, l₁, l₂, -, hl, herase⟩ := split_at_front h
  have hlen : (q.dequeueFrom i).pending = l₁ ++ l₂ := herase
  rw [hlen, hl, List.length_append, List.length_append, List.length_cons, Nat.add_assoc]

/-! ### What the history says -/

/-- No entry is enqueued twice. -/
theorem nodup_enqueued (q : ProducerQueue π α) : q.enqueued.Nodup :=
  List.Nodup.of_map Entry.ticket (by rw [q.tickets]; exact List.nodup_range)

theorem nodup_dequeued_append (q : ProducerQueue π α) : (q.dequeued ++ q.pending).Nodup :=
  q.conserved.nodup_iff.mp q.nodup_enqueued

/-- **At most once.**  No entry is dequeued twice. -/
theorem nodup_dequeued (q : ProducerQueue π α) : q.dequeued.Nodup :=
  (List.nodup_append.mp q.nodup_dequeued_append).1

/-- What has been dequeued is no longer waiting. -/
theorem not_pending_of_dequeued {q : ProducerQueue π α} {e : Entry π α} (h : e ∈ q.dequeued) :
    e ∉ q.pending :=
  fun hp => (List.nodup_append.mp q.nodup_dequeued_append).2.2 e h e hp rfl

theorem mem_enqueued {q : ProducerQueue π α} {e : Entry π α} :
    e ∈ q.enqueued ↔ e ∈ q.dequeued ∨ e ∈ q.pending := by
  rw [q.conserved.mem_iff, List.mem_append]

/-- **Order.**  For each producer the dequeued entries are a prefix of the enqueued ones. -/
theorem dequeued_prefix (q : ProducerQueue π α) (i : π) :
    q.dequeued.filter (·.producer = i) <+: q.enqueued.filter (·.producer = i) :=
  ⟨_, (q.ordered i).symm⟩

/-- An empty queue has handed out everything. -/
theorem mem_dequeued_of_pending_nil {q : ProducerQueue π α} (h : q.pending = [])
    {e : Entry π α} (he : e ∈ q.enqueued) : e ∈ q.dequeued := by
  rcases mem_enqueued.mp he with hd | hp
  · exact hd
  · rw [h] at hp
    simp at hp

end ProducerQueue

end Library
