/-
  PokerReco.Library.TwoQueues
  ───────────────────────────
  **TWO QUEUES, ONE BEFORE THE OTHER.**

  What is urgent waits in the first queue, the rest in the second one, and the
  second one is served when the first one is empty.

      TwoQueues.put       at the end of its queue
      TwoQueues.putBack   at the front of its queue
      TwoQueues.take      from the first queue, then from the second
-/
import Mathlib.Data.List.Basic

namespace PokerReco.Library

variable {P : Type}

/-- Two queues before one counter: the urgent ones, who are served first, and the
others. -/
structure TwoQueues (P : Type) where
  first : List P
  second : List P
  deriving DecidableEq, Repr

namespace TwoQueues

/-- No one waits. -/
def empty : TwoQueues P := ⟨[], []⟩

/-- The order in which they are served: no one of the second queue before the
first is empty. -/
def all (q : TwoQueues P) : List P := q.first ++ q.second

/-- New ones join the end of their queue, in the order in which they come. -/
def put (urgent : P → Bool) (new : List P) (q : TwoQueues P) : TwoQueues P :=
  ⟨q.first ++ new.filter urgent, q.second ++ new.filter (!urgent ·)⟩

/-- Those who had been served come back to the front of their queue. -/
def putBack (urgent : P → Bool) (new : List P) (q : TwoQueues P) : TwoQueues P :=
  ⟨new.filter urgent ++ q.first, new.filter (!urgent ·) ++ q.second⟩

/-- Some are served, in order; the urgent ones first. -/
def take (num : Nat) (q : TwoQueues P) : List P × TwoQueues P :=
  (q.all.take num, ⟨q.first.drop num, q.second.drop (num - q.first.length)⟩)

/-- Who waits afterwards are the others, in the same order. -/
theorem all_take (num : Nat) (q : TwoQueues P) : (q.take num).2.all = q.all.drop num :=
  List.drop_append.symm

/-- The first queue has urgent ones only, and the second none. -/
structure Sorted (urgent : P → Bool) (q : TwoQueues P) : Prop where
  first : ∀ p ∈ q.first, urgent p = true
  second : ∀ p ∈ q.second, urgent p = false

/-- Empty queues are sorted. -/
theorem sorted_empty (urgent : P → Bool) : Sorted urgent (empty : TwoQueues P) where
  first := fun _ hp => absurd hp List.not_mem_nil
  second := fun _ hp => absurd hp List.not_mem_nil

/-- New ones go to the queue that they belong to. -/
theorem Sorted.put {urgent : P → Bool} {q : TwoQueues P} (h : Sorted urgent q) (new : List P) :
    Sorted urgent (q.put urgent new) where
  first := by
    intro p hp
    cases List.mem_append.mp hp with
    | inl hbefore => exact h.first p hbefore
    | inr hnew => exact (List.mem_filter.mp hnew).2
  second := by
    intro p hp
    cases List.mem_append.mp hp with
    | inl hbefore => exact h.second p hbefore
    | inr hnew => simpa using (List.mem_filter.mp hnew).2

/-- Those who come back go to the queue that they belong to. -/
theorem Sorted.putBack {urgent : P → Bool} {q : TwoQueues P} (h : Sorted urgent q)
    (new : List P) : Sorted urgent (q.putBack urgent new) where
  first := by
    intro p hp
    cases List.mem_append.mp hp with
    | inl hnew => exact (List.mem_filter.mp hnew).2
    | inr hbefore => exact h.first p hbefore
  second := by
    intro p hp
    cases List.mem_append.mp hp with
    | inl hnew => simpa using (List.mem_filter.mp hnew).2
    | inr hbefore => exact h.second p hbefore

/-- Who is served leaves the others where they belong. -/
theorem Sorted.take {urgent : P → Bool} {q : TwoQueues P} (h : Sorted urgent q) (num : Nat) :
    Sorted urgent (q.take num).2 where
  first := fun p hp => h.first p (List.mem_of_mem_drop hp)
  second := fun p hp => h.second p (List.mem_of_mem_drop hp)

/-- Whether someone who waits is urgent is all that counts. -/
theorem Sorted.congr {urgent urgent' : P → Bool} {q : TwoQueues P} (h : Sorted urgent q)
    (hsame : ∀ p ∈ q.all, urgent' p = urgent p) : Sorted urgent' q where
  first := fun p hp => (hsame p (List.mem_append_left _ hp)).trans (h.first p hp)
  second := fun p hp => (hsame p (List.mem_append_right _ hp)).trans (h.second p hp)

end TwoQueues

end PokerReco.Library
