/-
  PokerReco.Library.FirstMatch
  ────────────────────────────
  **A LIST SEARCHED FOR THE FIRST MATCH.**

  The elements of a list have keys, and `answers k a` says that the element `a`
  matches the key `k`.  Each element matches its own key, and may match others,
  so that a search for the key of an element can stop at an earlier one.  It
  does not when no element matches the key of a later one (`Unshadowed`), which
  an insertion that first searches for the new key keeps, and every removal.

      Unshadowed.insertNew   the insertion keeps it
      Unshadowed.eraseP      so does the removal of a match
      Unshadowed.find?       a search for the key of an element finds it
      Unshadowed.split       and a removal under its key removes it
-/
import Mathlib.Data.List.Basic

namespace PokerReco.Library

variable {α κ : Type*}

/-! ## §1. The invariant. -/

/-- No element matches the key of a later one, so that a search from the front
finds each element by its key. -/
def Unshadowed (key : α → κ) (answers : κ → α → Bool) (l : List α) : Prop :=
  l.Pairwise fun a b => answers (key b) a = false

/-- The insertion at the end, unless an element matches the new key. -/
def insertNew (key : α → κ) (answers : κ → α → Bool) (l : List α) (a : α) : List α :=
  if l.any (answers (key a)) then l else l ++ [a]

namespace Unshadowed

variable {key : α → κ} {answers : κ → α → Bool} {l : List α}

/-- The empty list shadows nothing. -/
theorem nil : Unshadowed key answers [] := List.Pairwise.nil

/-- An insertion that is made only where nothing matches shadows nothing. -/
theorem insertNew (h : Unshadowed key answers l) (a : α) :
    Unshadowed key answers (insertNew key answers l a) := by
  unfold Library.insertNew
  split
  · exact h
  -- no element matches the key of the new one, which is the last
  · next hnone =>
      rw [Bool.not_eq_true, List.any_eq_false] at hnone
      refine List.pairwise_append.mpr ⟨h, List.pairwise_singleton _ a, fun b hb c hc => ?_⟩
      rw [List.mem_singleton.mp hc]
      exact Bool.eq_false_iff.mpr (hnone b hb)

/-- Whatever is removed, nothing is shadowed by what is left. -/
theorem eraseP (h : Unshadowed key answers l) (p : α → Bool) :
    Unshadowed key answers (l.eraseP p) :=
  List.Pairwise.sublist List.eraseP_sublist h

/-! ## §2. What a search finds. -/

/-- **Where an element stands**: nothing before it matches its key. -/
theorem split (h : Unshadowed key answers l) {a : α} (ha : a ∈ l) :
    ∃ before after, l = before ++ a :: after ∧ ∀ b ∈ before, answers (key a) b = false := by
  obtain ⟨before, after, rfl⟩ := List.append_of_mem ha
  refine ⟨before, after, rfl, fun b hb => ?_⟩
  exact (List.pairwise_append.mp h).2.2 b hb a List.mem_cons_self

variable (own : ∀ a, answers (key a) a = true)

include own

/-- The first element that matches the key of an element is this element. -/
theorem find? (h : Unshadowed key answers l) {a : α} (ha : a ∈ l) :
    l.find? (answers (key a)) = some a := by
  obtain ⟨before, after, rfl, hbefore⟩ := h.split ha
  refine List.find?_eq_some_iff_append.mpr ⟨own a, before, after, rfl, fun b hb => ?_⟩
  rw [hbefore b hb]
  rfl

/-- A removal by the key of an element takes this one out, if nothing before
it matches. -/
theorem eraseP_split {before after : List α} {a : α}
    (hbefore : ∀ b ∈ before, answers (key a) b = false) :
    (before ++ a :: after).eraseP (answers (key a)) = before ++ after := by
  rw [List.eraseP_append_right, List.eraseP_cons_of_pos (own a)]
  intro b hb
  rw [hbefore b hb]
  exact Bool.false_ne_true

/-- The keys of the elements are different, if each element matches its own. -/
theorem keys_nodup (h : Unshadowed key answers l) : (l.map key).Nodup := by
  refine List.pairwise_map.mpr (h.imp fun {a b} hab hkey => ?_)
  rw [← hkey, own a] at hab
  cases hab

end Unshadowed

end PokerReco.Library
