/-
  PokerReco.Library.Placement
  ───────────────────────────
  **THINGS THAT ARE IN ONE PLACE.**

  `content q` lists the things in the place `q`, and `place` says where a thing
  is.  A move takes some things from one place to another.

      Placement.existsUnique   each thing is in exactly one place
      Placement.move           it still is after a move
      Placement.room           a place never has more than there are
-/
import Mathlib.Data.List.Perm.Subperm
import Mathlib.Logic.Function.Basic

namespace PokerReco.Library

variable {P Q : Type}

/-- Each thing is in one place, `place` says in which, and `content` lists what is
there, each thing once. -/
structure Placement (content : Q → List P) (place : P → Q) : Prop where
  nodup : ∀ q, (content q).Nodup
  mem : ∀ q p, p ∈ content q ↔ place p = q

namespace Placement

variable {content : Q → List P} {place : P → Q}

/-- Each thing is listed in exactly one place. -/
theorem existsUnique (h : Placement content place) (p : P) : ∃! q, p ∈ content q := by
  refine ⟨place p, (h.mem _ p).mpr rfl, ?_⟩
  intro q hq
  exact ((h.mem q p).mp hq).symm

/-- What is in one place is in no other. -/
theorem disjoint (h : Placement content place) {x y : Q} (hxy : x ≠ y) {p : P}
    (hx : p ∈ content x) : p ∉ content y := by
  intro hy
  exact hxy (((h.mem x p).mp hx).symm.trans ((h.mem y p).mp hy))

/-- Things from elsewhere are not there yet, so that they can be added to
a place. -/
theorem nodup_append (h : Placement content place) {x y : Q} (hxy : x ≠ y) {taken : List P}
    (hnodup : taken.Nodup) (hx : ∀ p ∈ taken, p ∈ content x) : (content y ++ taken).Nodup := by
  rw [List.nodup_append]
  refine ⟨h.nodup y, hnodup, ?_⟩
  intro p hp p' hp' heq
  subst heq
  exact h.disjoint hxy (hx p hp') hp

/-- **There is room** for things from elsewhere: with them a place has no more
than there are at all. -/
theorem room (h : Placement content place) {x y : Q} (hxy : x ≠ y) {taken : List P}
    (hnodup : taken.Nodup) (hx : ∀ p ∈ taken, p ∈ content x) {all : List P}
    (hall : ∀ p, p ∈ all) : (content y).length + taken.length ≤ all.length := by
  have hsub : (content y ++ taken).Subperm all :=
    (List.subperm_of_subset (h.nodup_append hxy hnodup hx)) fun p _ => hall p
  have hle := hsub.length_le
  rw [List.length_append] at hle
  exact hle

variable [DecidableEq Q]

/-- What is in the places after a move from `x` to `y`: what was left at `x`, and
what is now at `y`. -/
def moved (content : Q → List P) (x y : Q) (left l' : List P) : Q → List P :=
  Function.update (Function.update content x left) y l'

/-- Where the things go. -/
theorem moved_to (content : Q → List P) (x y : Q) (left l' : List P) :
    moved content x y left l' y = l' := by
  unfold moved
  rw [Function.update_self]

/-- Where they come from, unless they go back there. -/
theorem moved_from (content : Q → List P) {x y : Q} (hxy : x ≠ y) (left l' : List P) :
    moved content x y left l' x = left := by
  unfold moved
  rw [Function.update_of_ne hxy, Function.update_self]

/-- Any other place has what it had. -/
theorem moved_of_ne (content : Q → List P) {x y q : Q} (hx : q ≠ x) (hy : q ≠ y)
    (left l' : List P) : moved content x y left l' q = content q := by
  unfold moved
  rw [Function.update_of_ne hy, Function.update_of_ne hx]

/-- **A move** of some things from one place to another leaves each thing in
one place. -/
theorem move [DecidableEq P] (h : Placement content place) {x y : Q} (hxy : x ≠ y)
    {taken left l' : List P} (hx : (taken ++ left).Perm (content x))
    (hy : l'.Perm (content y ++ taken)) :
    Placement (moved content x y left l') (fun p => if p ∈ taken then y else place p) := by
  have htaken : ∀ p ∈ taken, p ∈ content x := fun p hp =>
    hx.mem_iff.mp (List.mem_append_left left hp)
  have hall := List.nodup_append.mp (hx.nodup_iff.mpr (h.nodup x))
  constructor
  · -- no place has a thing twice: the taken ones were not in `y`
    intro q
    by_cases hqy : q = y
    · rw [hqy, moved_to]
      exact hy.nodup_iff.mpr (h.nodup_append hxy hall.1 htaken)
    · by_cases hqx : q = x
      · rw [hqx, moved_from content hxy]
        exact hall.2.1
      · rw [moved_of_ne content hqx hqy]
        exact h.nodup q
  · -- the taken ones are in `y` and nowhere else, the others where they were
    intro q p
    by_cases hp : p ∈ taken
    · rw [if_pos hp]
      by_cases hqy : q = y
      · rw [hqy, moved_to, hy.mem_iff]
        exact iff_of_true (List.mem_append_right _ hp) rfl
      · refine iff_of_false ?_ (Ne.symm hqy)
        by_cases hqx : q = x
        · rw [hqx, moved_from content hxy]
          exact fun hleft => hall.2.2 p hp p hleft rfl
        · rw [moved_of_ne content hqx hqy]
          exact h.disjoint (Ne.symm hqx) (htaken p hp)
    · rw [if_neg hp, ← h.mem q p]
      by_cases hqy : q = y
      · rw [hqy, moved_to, hy.mem_iff, List.mem_append]
        exact or_iff_left hp
      · by_cases hqx : q = x
        · rw [hqx, moved_from content hxy, ← hx.mem_iff, List.mem_append]
          exact (or_iff_right hp).symm
        · rw [moved_of_ne content hqx hqy]

end Placement

/-- Some things of a list and the others are the list, in some order. -/
theorem filter_notMem_perm [DecidableEq P] {l taken : List P} (hl : l.Nodup) (hnodup : taken.Nodup)
    (hsub : ∀ p ∈ taken, p ∈ l) : (taken ++ l.filter (· ∉ taken)).Perm l := by
  refine (List.perm_ext_iff_of_nodup ?_ hl).mpr ?_
  · rw [List.nodup_append]
    refine ⟨hnodup, hl.filter _, ?_⟩
    intro p hp p' hp' heq
    subst heq
    exact (of_decide_eq_true (List.mem_filter.mp hp').2) hp
  · intro p
    rw [List.mem_append, List.mem_filter, decide_eq_true_iff]
    by_cases hp : p ∈ taken
    · exact iff_of_true (Or.inl hp) (hsub p hp)
    · rw [or_iff_right hp]
      exact and_iff_left hp

end PokerReco.Library
