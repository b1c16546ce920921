/-
  PokerReco.Library.LastWrite
  ───────────────────────────
  **THE LAST WRITE COUNTS.**

  A loop that stores the elements of a list under their keys leaves, at each
  key, what the last element with that key says, and what was there before
  where no element has it.

      lastWrite_append         the last write of two lists is that of the second
      foldl_assign             what the loop leaves in a variable
      getElem?_foldl_insert    what it leaves in a map
-/
import Mathlib.Data.List.Basic
import Std.Data.TreeMap.Lemmas

namespace PokerReco.Library

variable {α κ ν : Type*} [DecidableEq κ]

/-! ## §1. The last element with a key. -/

/-- The last element of the list with the key `k`: the one that a reader of `k`
sees after the elements were written in order. -/
def lastWrite (key : α → κ) (l : List α) (k : κ) : Option α :=
  (l.filter fun a => key a = k).getLast?

variable {key : α → κ} {l : List α} {a : α} {k : κ}

/-- Of two stretches of writes the second hides the first, for the keys that it
has. -/
theorem lastWrite_append (l l' : List α) :
    lastWrite key (l ++ l') k = (lastWrite key l' k).or (lastWrite key l k) := by
  unfold lastWrite
  rw [List.filter_append, List.getLast?_append]

/-- A single write is seen under its own key and no other. -/
theorem lastWrite_singleton : lastWrite key [a] k = if key a = k then some a else none := by
  unfold lastWrite
  by_cases h : key a = k
  · rw [if_pos h, List.filter_cons_of_pos (by simpa using h)]
    rfl
  · rw [if_neg h, List.filter_cons_of_neg (by simpa using h)]
    rfl

/-- The first write of a list is seen only where no later one has its key. -/
theorem lastWrite_cons : lastWrite key (a :: l) k
    = (lastWrite key l k).or (if key a = k then some a else none) := by
  rw [← List.singleton_append, lastWrite_append, lastWrite_singleton]

/-- The value that is read after a list of writes: that of the first write is the
value before the rest, where it has the key. -/
theorem lastWrite_cons_getD (val : α → ν) (v : ν) :
    ((lastWrite key (a :: l) k).map val).getD v
      = ((lastWrite key l k).map val).getD (if key a = k then val a else v) := by
  rw [lastWrite_cons]
  cases lastWrite key l k with
  | some later => rfl
  | none =>
      by_cases h : key a = k
      · rw [if_pos h, if_pos h]
        rfl
      · rw [if_neg h, if_neg h]
        rfl

/-- One write more at the end, which is how a run grows: it is what its key shows
from then on. -/
theorem lastWrite_concat : lastWrite key (l ++ [a]) k
    = if key a = k then some a else lastWrite key l k := by
  rw [lastWrite_append, lastWrite_singleton]
  split
  · rfl
  · rfl

/-- A key shows something exactly when it was written at all. -/
theorem lastWrite_isSome_iff : (lastWrite key l k).isSome = true ↔ ∃ a ∈ l, key a = k := by
  unfold lastWrite
  rw [List.getLast?_isSome, ← List.length_pos_iff, List.length_filter_pos_iff]
  simp only [decide_eq_true_eq]

/-! ## §2. Loops. -/

/-- **What a loop of assignments leaves** in one variable: the value of the last
element with its key, or the value that it had before. -/
theorem foldl_assign (val : α → ν) (l : List α) (k : κ) (v : ν) :
    l.foldl (fun v a => if key a = k then val a else v) v
      = ((lastWrite key l k).map val).getD v := by
  induction l generalizing v with
  | nil => rfl
  | cons a l ih => rw [List.foldl_cons, ih, lastWrite_cons_getD]

/-- **What a loop of insertions leaves** at each key of a tree map: the last value
inserted there, or what the map had. -/
theorem getElem?_foldl_insert {cmp : κ → κ → Ordering} [Std.TransCmp cmp] [Std.LawfulEqCmp cmp]
    (val : α → ν) (l : List α) (m : Std.TreeMap κ ν cmp) (k : κ) :
    (l.foldl (fun m a => m.insert (key a) (val a)) m)[k]?
      = ((lastWrite key l k).map val).or m[k]? := by
  induction l generalizing m with
  | nil => rfl
  | cons a l ih =>
      rw [List.foldl_cons, ih, lastWrite_cons, Std.TreeMap.getElem?_insert]
      cases lastWrite key l k with
      | some b => rfl
      | none =>
          by_cases h : key a = k
          · rw [if_pos (by rw [h]; exact Std.LawfulEqCmp.compare_eq_iff_eq.mpr rfl), if_pos h]
            rfl
          · rw [if_neg (fun heq => h (Std.LawfulEqCmp.compare_eq_iff_eq.mp heq)), if_neg h]
            rfl

end PokerReco.Library
