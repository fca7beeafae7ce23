/-
A bounded first-in-first-out queue.

The queue holds at most `capacity` elements.  A write appends as much of what it is given as
fits, a read removes as many elements as are there, up to the number asked for, and each call
reports what it did.  `history` is the law of the whole queue: over any sequence of calls, what
the writes accepted is what the reads delivered followed by what is still inside, so nothing is
lost, repeated or reordered.

An implementation that handles one element at a time is compared through `push` and `pop`:
`write_cons` and `read_succ` take one element off a call.
-/
import Mathlib.Data.List.Basic

namespace Library

/-- At most `capacity` elements, the oldest first. -/
@[ext] structure Fifo (α : Type) (capacity : Nat) where
  items : List α
  bounded : items.length ≤ capacity

/-- A call: write these elements, or read up to this many. -/
inductive Fifo.Call (α : Type) where
  | write (xs : List α)
  | read (n : Nat)

/-- What a call reports: how many elements it accepted, or the elements it delivered. -/
inductive Fifo.Outcome (α : Type) where
  | written (n : Nat)
  | read (xs : List α)
  deriving DecidableEq

namespace Fifo

variable {α : Type} {capacity : Nat}

def empty : Fifo α capacity := ⟨[], Nat.zero_le _⟩

/-- How many elements still fit. -/
def free (q : Fifo α capacity) : Nat := capacity - q.items.length

/-- Append the part of `xs` that fits. -/
def write (q : Fifo α capacity) (xs : List α) : Fifo α capacity where
  items := q.items ++ xs.take q.free
  bounded := by
    have hq := q.bounded
    simp [free]
    omega

/-- Remove the first `n` elements, or all if there are fewer. -/
def read (q : Fifo α capacity) (n : Nat) : Fifo α capacity where
  items := q.items.drop n
  bounded := by
    have hq := q.bounded
    simp
    omega

def call (q : Fifo α capacity) : Call α → Fifo α capacity × Outcome α
  | .write xs => (q.write xs, .written (min xs.length q.free))
  | .read n => (q.read n, .read (q.items.take n))

/-- A sequence of calls, with their reports. -/
def run (q : Fifo α capacity) : List (Call α) → Fifo α capacity × List (Outcome α)
  | [] => (q, [])
  | c :: rest => (((q.call c).1.run rest).1, (q.call c).2 :: ((q.call c).1.run rest).2)

@[simp] theorem empty_items : (empty : Fifo α capacity).items = [] := rfl

/-! ### One element at a time -/

/-- Append one element. -/
def push (q : Fifo α capacity) (a : α) (h : q.items.length < capacity) : Fifo α capacity where
  items := q.items ++ [a]
  bounded := by
    rw [List.length_append]
    exact h

/-- Remove the first element. -/
def pop (q : Fifo α capacity) : Fifo α capacity := q.read 1

@[simp] theorem push_items (q : Fifo α capacity) (a : α) (h : q.items.length < capacity) :
    (q.push a h).items = q.items ++ [a] := rfl

theorem pop_items {q : Fifo α capacity} {a : α} {rest : List α} (h : q.items = a :: rest) :
    q.pop.items = rest := by
  show q.items.drop 1 = rest
  rw [h]
  rfl

theorem push_free (q : Fifo α capacity) (a : α) (h : q.items.length < capacity) :
    q.free = (q.push a h).free + 1 := by
  simp [free]
  omega

theorem lt_capacity {q : Fifo α capacity} : q.items.length < capacity ↔ 0 < q.free := by
  unfold free
  omega

@[simp] theorem write_nil (q : Fifo α capacity) : q.write [] = q := by
  ext1
  simp [write]

theorem write_cons (q : Fifo α capacity) (a : α) (xs : List α) (h : q.items.length < capacity) :
    q.write (a :: xs) = (q.push a h).write xs := by
  ext1
  show q.items ++ (a :: xs).take q.free = q.items ++ [a] ++ xs.take (q.push a h).free
  rw [push_free q a h, List.take_succ_cons, List.append_assoc, List.singleton_append]

/-- A write of elements that all fit. -/
theorem write_items {q : Fifo α capacity} {xs : List α} (h : xs.length ≤ q.free) :
    (q.write xs).items = q.items ++ xs := by
  simp [write, List.take_of_length_le h]

theorem write_full {q : Fifo α capacity} (h : ¬q.items.length < capacity) (xs : List α) :
    q.write xs = q := by
  have hfree : q.free = 0 := by unfold free; omega
  ext1
  simp [write, hfree]

theorem read_succ (q : Fifo α capacity) (n : Nat) : q.read (n + 1) = q.pop.read n := by
  ext1
  simp [pop, read]

theorem read_empty {q : Fifo α capacity} (h : q.items = []) (n : Nat) : q.read n = q := by
  ext1
  simp [read, h]

/-! ### The history of a queue -/

/-- The elements a call put into the queue, by what it reported. -/
def Outcome.accepted : Call α → Outcome α → List α
  | .write xs, .written n => xs.take n
  | _, _ => []

/-- The elements a call took out of the queue. -/
def Outcome.delivered : Outcome α → List α
  | .read xs => xs
  | .written _ => []

/-- Everything accepted by these calls, in order. -/
def accepted (calls : List (Call α)) (outs : List (Outcome α)) : List α :=
  (List.zipWith Outcome.accepted calls outs).flatten

/-- Everything delivered, in order. -/
def delivered (outs : List (Outcome α)) : List α := (outs.map Outcome.delivered).flatten

theorem call_conserves (q : Fifo α capacity) (c : Call α) :
    q.items ++ (q.call c).2.accepted c = (q.call c).2.delivered ++ (q.call c).1.items := by
  cases c with
  | write xs =>
      show q.items ++ xs.take (min xs.length q.free) = [] ++ (q.items ++ xs.take q.free)
      rw [List.take_eq_take_min (i := q.free), Nat.min_comm, List.nil_append]
  | read n => simp [call, read, Outcome.accepted, Outcome.delivered]

/-- **Nothing is lost, repeated or reordered**: what was inside and what was accepted since is
what was delivered since and what is inside now. -/
theorem history (calls : List (Call α)) :
    ∀ q : Fifo α capacity, q.items ++ accepted calls (q.run calls).2
      = delivered (q.run calls).2 ++ (q.run calls).1.items := by
  induction calls with
  | nil => intro q; simp [run, accepted, delivered]
  | cons c rest ih =>
      intro q
      have hstep := call_conserves q c
      have hrest := ih (q.call c).1
      simp only [run, accepted, delivered, List.zipWith_cons_cons, List.map_cons,
        List.flatten_cons] at hrest ⊢
      rw [← List.append_assoc, hstep, List.append_assoc, hrest, List.append_assoc]

end Fifo

end Library
