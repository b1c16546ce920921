/-
  PokerReco.Library.Matching
  ──────────────────────────
  **ENTRIES MATCHED BY A KEY.**

  A loop takes the entries of one list and searches another list for the first
  entry with the same key.  When the keys of the searched list are distinct the
  order of that list does not show.

      find?_key_iff        what the search finds
      find?_key_perm       the searched list in another order
      forall₂_publishEach  a loop that publishes something for some entries
-/
import Mathlib.Data.List.Forall2
import Mathlib.Data.List.Nodup
import Mathlib.Data.List.Perm.Basic

namespace PokerReco.Library

variable {α β κ : Type*} [DecidableEq κ]

/-! ## §1. The search. -/

section Search

variable {key : α → κ} {l : List α}

/-- An entry with the key is the one that is found. -/
theorem find?_key_iff (hnodup : (l.map key).Nodup) {k : κ} {a : α} :
    l.find? (fun a => key a = k) = some a ↔ a ∈ l ∧ key a = k := by
  constructor
  · intro h
    exact ⟨List.mem_of_find?_eq_some h, by simpa using List.find?_some h⟩
  · rintro ⟨hmem, rfl⟩
    cases hfind : l.find? (fun b => key b = key a) with
    | none =>
        exact absurd (decide_eq_true rfl) (List.find?_eq_none.mp hfind a hmem)
    | some b =>
        have hb := List.mem_of_find?_eq_some hfind
        have hkey : key b = key a := by simpa using List.find?_some hfind
        rw [List.inj_on_of_nodup_map hnodup hb hmem hkey]

/-- **The order of the searched list does not show.** -/
theorem find?_key_perm {l' : List α} (hperm : l'.Perm l) (hnodup : (l.map key).Nodup) (k : κ) :
    l'.find? (fun a => key a = k) = l.find? (fun a => key a = k) := by
  have hnodup' : (l'.map key).Nodup := (hperm.map key).nodup_iff.mpr hnodup
  refine Option.ext fun a => ?_
  rw [find?_key_iff hnodup', find?_key_iff hnodup, hperm.mem_iff]

end Search

/-! ## §2. The loop. -/

/-- A loop over the entries from place `n` on: each publishes something or
nothing. -/
def publishEach (publish : Nat → α → Option β) : (n : Nat) → List α → List β
  | _, [] => []
  | n, a :: l =>
      match publish n a with
      | none => publishEach publish (n + 1) l
      | some b => b :: publishEach publish (n + 1) l

theorem publishEach_congr {publish publish' : Nat → α → Option β}
    (h : ∀ n a, publish n a = publish' n a) (n : Nat) (l : List α) :
    publishEach publish n l = publishEach publish' n l := by
  rw [show publish = publish' from funext fun n => funext (h n)]

/-- What is published, when that depends on the entry up to the memory of its
place. -/
theorem forall₂_publishEach {publish : Nat → α → Option β} {P : α → Prop} [DecidablePred P]
    {R : α → β → Prop} (l : List α) (hsome : ∀ n, ∀ a ∈ l, ∀ b, publish n a = some b → P a ∧ R a b)
    (hnone : ∀ n, ∀ a ∈ l, publish n a = none → ¬ P a) (n : Nat) :
    List.Forall₂ R (l.filter P) (publishEach publish n l) := by
  induction l generalizing n with
  | nil => exact List.Forall₂.nil
  | cons a l ih =>
      have hrest := ih (fun n b hb => hsome n b (List.mem_cons_of_mem a hb))
        (fun n b hb => hnone n b (List.mem_cons_of_mem a hb)) (n + 1)
      unfold publishEach
      cases hpublish : publish n a with
      | none =>
          rw [List.filter_cons_of_neg (by simpa using hnone n a List.mem_cons_self hpublish)]
          exact hrest
      | some b =>
          obtain ⟨hP, hR⟩ := hsome n a List.mem_cons_self b hpublish
          rw [List.filter_cons_of_pos (by simpa using hP)]
          exact List.Forall₂.cons hR hrest

/-- How much is published, when that does not depend on the memory. -/
theorem length_publishEach {publish : Nat → α → Option β} {P : α → Prop} [DecidablePred P]
    (hpublish : ∀ n a, (publish n a).isSome = true ↔ P a) (n : Nat) (l : List α) :
    (publishEach publish n l).length = (l.filter P).length := by
  refine (List.Forall₂.length_eq (R := fun _ _ => True) ?_).symm
  refine forall₂_publishEach l (fun n a _ b hb => ?_) (fun n a _ hnone hP => ?_) n
  · exact ⟨(hpublish n a).mp (Option.isSome_of_eq_some hb), trivial⟩
  · have hsome := (hpublish n a).mpr hP
    rw [hnone] at hsome
    cases hsome

/-- A weaker property that selects no more elements selects the same. -/
theorem of_length_filter {P Q : α → Prop} [DecidablePred P] [DecidablePred Q]
    (hPQ : ∀ a, P a → Q a) {l : List α} (hlength : (l.filter P).length = (l.filter Q).length)
    {a : α} (ha : a ∈ l) (hQ : Q a) : P a := by
  have hsub : (l.filter P).Sublist (l.filter Q) :=
    List.monotone_filter_right l fun a ha => by simpa using hPQ a (by simpa using ha)
  have hmem : a ∈ l.filter P := by
    rw [hsub.eq_of_length hlength]
    exact List.mem_filter.mpr ⟨ha, decide_eq_true hQ⟩
  exact of_decide_eq_true (List.mem_filter.mp hmem).2

end PokerReco.Library
